import VialQmk.Library.CString
import VialQmk.Macro.Playback

/-!
# Macros - sending a string

{lit}`send_string_with_delay` takes a string command by command: a character, or a prefix
with a code and what the code asks for.  Nothing behind a prefix is compared with the
terminator.

Main results:

- Definition {lit}`sendRound`: one round of the loop, with its reads.
- Theorem {lit}`sendString_eq`: on strings that divide into commands the loop does what the
  playback of a string does.
- Theorem {lit}`staysInBounds_iff`: the loop keeps to the string, and to the tables, just for
  strings that divide into commands whose characters are ASCII.
-/

namespace VialQmk
namespace Macro

open CString

variable (t : Tables) (interval : UInt8)

/-! ## The loop -/

/-- The loop over the digits of a delay: the pointer behind the byte that ends them, and the
number. -/
def sendDelay : ℕ → List UInt8 → Option (List UInt8 × ℕ)
  | _, [] => none
  | ms, keycode :: string =>
    if isDigit keycode then sendDelay (ms * 10 + (keycode.toNat - 0x30)) string
    else some (string, ms)

/-- One round of the loop of {lit}`send_string_with_delay`. -/
def sendRound : List UInt8 → Option (List UInt8 × List Act)
  | [] => none
  | asciiCode :: string =>
    if asciiCode = ssQmkPrefix then
      match string with
      | [] => none
      | code :: string =>
        if code = ssTapCode ∨ code = ssDownCode ∨ code = ssUpCode then
          match string with
          | [] => none
          | keycode :: string =>
            some (string,
              [if code = ssTapCode then .tapCode keycode.toNat
                else if code = ssDownCode then .registerCode keycode.toNat
                else .unregisterCode keycode.toNat,
              .waitMs interval.toNat])
        else if code = ssDelayCode then
          match sendDelay 0 string with
          | none => none
          | some (string, ms) => some (string, [delayAct t ms, .waitMs interval.toNat])
        else some (string, [.waitMs interval.toNat])
    else some (string, sendCharWithDelay t asciiCode interval)

/-- {lit}`send_string_with_delay`, for some rounds. -/
def sendString (n : ℕ) (string : List UInt8) : Scan (List Act) Unit :=
  scan (sendRound t interval) n string

/-! ## Commands -/

/-- Digits, and a byte that ends them. -/
def IsDelay : List UInt8 → Prop
  | [] => False
  | keycode :: string => if isDigit keycode then IsDelay string else string = []

/-- The bytes of one command. -/
def IsCommand : List UInt8 → Prop
  | [] => False
  | asciiCode :: string =>
    if asciiCode = ssQmkPrefix then
      match string with
      | [] => False
      | code :: string =>
        if code = ssTapCode ∨ code = ssDownCode ∨ code = ssUpCode then string.length = 1
        else if code = ssDelayCode then IsDelay string
        else string = []
    else string = []

/-- What a command does. -/
def actsOf (command : List UInt8) : List Act :=
  match sendRound t interval command with
  | none => []
  | some (_, acts) => acts

theorem sendDelay_append {digits : List UInt8} (h : IsDelay digits) (ms : ℕ) :
    ∃ ms', ∀ rest, sendDelay ms (digits ++ rest) = some (rest, ms') := by
  induction digits generalizing ms with
  | nil => exact absurd h id
  | cons keycode digits ih =>
    unfold IsDelay at h
    simp only [List.cons_append, sendDelay]
    split_ifs at h ⊢ with hdigit
    · exact ih h _
    · subst h
      exact ⟨ms, fun rest => rfl⟩

theorem exists_delay {string next : List UInt8} {ms ms' : ℕ}
    (h : sendDelay ms string = some (next, ms')) :
    ∃ digits, IsDelay digits ∧ string = digits ++ next := by
  induction string generalizing ms with
  | nil => exact absurd h (by simp [sendDelay])
  | cons keycode string ih =>
    unfold sendDelay at h
    split_ifs at h with hdigit
    · obtain ⟨digits, hdigits, rfl⟩ := ih h
      refine ⟨keycode :: digits, ?_, rfl⟩
      unfold IsDelay
      rwa [if_pos hdigit]
    · obtain ⟨rfl, -⟩ := Prod.mk.inj (Option.some.inj h)
      refine ⟨[keycode], ?_, rfl⟩
      unfold IsDelay
      rw [if_neg hdigit]

/-- A round takes a command from the front of a string. -/
theorem sendRound_append {command : List UInt8} (h : IsCommand command) :
    ∃ acts, ∀ rest, sendRound t interval (command ++ rest) = some (rest, acts) := by
  match command, h with
  | asciiCode :: string, h =>
    by_cases hprefix : asciiCode = ssQmkPrefix
    · simp only [IsCommand, if_pos hprefix] at h
      match string, h with
      | code :: string, h =>
        simp only [List.cons_append, sendRound, if_pos hprefix]
        by_cases hkey : code = ssTapCode ∨ code = ssDownCode ∨ code = ssUpCode
        · simp only [if_pos hkey] at h ⊢
          obtain ⟨keycode, rfl⟩ := List.length_eq_one_iff.mp h
          exact ⟨_, fun rest => rfl⟩
        · simp only [if_neg hkey] at h ⊢
          by_cases hdelay : code = ssDelayCode
          · simp only [if_pos hdelay] at h ⊢
            obtain ⟨ms, hms⟩ := sendDelay_append h 0
            exact ⟨_, fun rest => by rw [hms rest]⟩
          · simp only [if_neg hdelay] at h ⊢
            subst h
            exact ⟨_, fun rest => rfl⟩
    · simp only [IsCommand, if_neg hprefix] at h
      subst h
      simp only [List.cons_append, List.nil_append, sendRound, if_neg hprefix]
      exact ⟨_, fun rest => rfl⟩

/-- What a round has taken is a command. -/
theorem exists_command {string next : List UInt8} {acts : List Act}
    (h : sendRound t interval string = some (next, acts)) :
    ∃ command, IsCommand command ∧ string = command ++ next := by
  match string, h with
  | asciiCode :: string, h =>
    by_cases hprefix : asciiCode = ssQmkPrefix
    · match string, h with
      | [], h =>
        simp only [sendRound, if_pos hprefix] at h
        exact absurd h (by simp)
      | code :: string, h =>
        simp only [sendRound, if_pos hprefix] at h
        by_cases hkey : code = ssTapCode ∨ code = ssDownCode ∨ code = ssUpCode
        · simp only [if_pos hkey] at h
          match string, h with
          | keycode :: string, h =>
            obtain ⟨rfl, -⟩ := Prod.mk.inj (Option.some.inj h)
            exact ⟨[asciiCode, code, keycode], by simp [IsCommand, hprefix, hkey], rfl⟩
        · simp only [if_neg hkey] at h
          by_cases hdelay : code = ssDelayCode
          · simp only [if_pos hdelay] at h
            cases hms : sendDelay 0 string with
            | none => exact absurd h (by simp [hms])
            | some taken =>
              obtain ⟨next', ms⟩ := taken
              rw [hms] at h
              obtain ⟨rfl, -⟩ := Prod.mk.inj (Option.some.inj h)
              obtain ⟨digits, hdigits, rfl⟩ := exists_delay hms
              refine ⟨asciiCode :: code :: digits, ?_, rfl⟩
              simpa only [IsCommand, if_pos hprefix, if_neg hkey, if_pos hdelay] using hdigits
          · simp only [if_neg hdelay] at h
            obtain ⟨rfl, -⟩ := Prod.mk.inj (Option.some.inj h)
            refine ⟨[asciiCode, code], ?_, rfl⟩
            simp only [IsCommand, if_pos hprefix, if_neg hkey, if_neg hdelay]
    · simp only [sendRound, if_neg hprefix] at h
      obtain ⟨rfl, -⟩ := Prod.mk.inj (Option.some.inj h)
      refine ⟨[asciiCode], ?_, rfl⟩
      simp only [IsCommand, if_neg hprefix]

theorem sendRound_command {command : List UInt8} (h : IsCommand command) (rest : List UInt8) :
    sendRound t interval (command ++ rest) = some (rest, actsOf t interval command) := by
  obtain ⟨acts, hacts⟩ := sendRound_append t interval h
  have halone := hacts []
  rw [List.append_nil] at halone
  rw [hacts rest, actsOf, halone]

/-- The loop reads commands. -/
theorem reads_sendRound : Reads (sendRound t interval) IsCommand (actsOf t interval) where
  not_nil := id
  append := fun _ hpiece rest => sendRound_command t interval hpiece rest
  exists_piece := by
    intro string next acts h
    obtain ⟨command, hcommand, rfl⟩ := exists_command t interval h
    rw [sendRound_command t interval hcommand next] at h
    exact ⟨command, hcommand, rfl, (Prod.mk.inj (Option.some.inj h)).2.symm⟩

/-! ## Playback -/

/-- Inside of a delay the playback of a string does what the round does. -/
theorem sendStringWithDelay_delay {digits : List UInt8} (h : IsDelay digits) (ms : ℕ)
    (rest : List UInt8) :
    ∃ ms', sendDelay ms (digits ++ rest) = some (rest, ms') ∧
      sendStringWithDelay t interval (some ms) (digits ++ rest) =
        delayAct t ms' :: .waitMs interval.toNat :: sendStringWithDelay t interval none rest := by
  induction digits generalizing ms with
  | nil => exact absurd h id
  | cons keycode digits ih =>
    unfold IsDelay at h
    simp only [List.cons_append, sendDelay, sendStringWithDelay]
    split_ifs at h ⊢ with hdigit
    · exact ih h _
    · subst h
      exact ⟨ms, rfl, rfl⟩

/-- The playback of a string begins with its first command. -/
theorem sendStringWithDelay_command {command : List UInt8} (h : IsCommand command)
    (hnul : 0 ∉ command) (rest : List UInt8) :
    sendStringWithDelay t interval none (command ++ rest) =
      actsOf t interval command ++ sendStringWithDelay t interval none rest := by
  have hacts := sendRound_command t interval h rest
  rcases command with _ | ⟨asciiCode, string⟩
  · exact False.elim h
  · have hzero : asciiCode ≠ 0 := by
      rintro rfl
      exact hnul List.mem_cons_self
    rw [List.cons_append, sendStringWithDelay.eq_def]
    dsimp only
    rw [if_neg hzero]
    by_cases hprefix : asciiCode = ssQmkPrefix
    · simp only [IsCommand, if_pos hprefix] at h
      rcases string with _ | ⟨code, string⟩
      · exact False.elim h
      · simp only [List.cons_append, sendRound, if_pos hprefix] at hacts ⊢
        by_cases hkey : code = ssTapCode ∨ code = ssDownCode ∨ code = ssUpCode
        · simp only [if_pos hkey] at h hacts ⊢
          obtain ⟨keycode, rfl⟩ := List.length_eq_one_iff.mp h
          rw [← (Prod.mk.inj (Option.some.inj hacts)).2]
          rfl
        · simp only [if_neg hkey] at h hacts ⊢
          by_cases hdelay : code = ssDelayCode
          · simp only [if_pos hdelay] at h hacts ⊢
            obtain ⟨ms, hms, hplay⟩ := sendStringWithDelay_delay t interval h 0 rest
            rw [hms] at hacts
            rw [← (Prod.mk.inj (Option.some.inj hacts)).2, hplay]
            rfl
          · simp only [if_neg hdelay] at h hacts ⊢
            subst h
            rw [← (Prod.mk.inj (Option.some.inj hacts)).2]
            rfl
    · simp only [IsCommand, if_neg hprefix] at h
      subst h
      simp only [List.cons_append, sendRound, if_neg hprefix] at hacts ⊢
      rw [← (Prod.mk.inj (Option.some.inj hacts)).2]
      rfl

/-- On a string that divides into commands the loop does what the playback does. -/
theorem sendString_eq {s : CString} {commands : List (List UInt8)}
    (h : Divides IsCommand s.bytes commands) {n : ℕ} (hn : s.bytes.length < n) :
    ∃ outputs, sendString t interval n s.str = .finished outputs () ∧
      outputs.flatten = sendStringWithDelay t interval none s.str := by
  refine ⟨_, (scan_iff (reads_sendRound t interval) s _).mpr ⟨commands, h, rfl⟩ n hn, ?_⟩
  obtain ⟨bytes, hnul⟩ := s
  simp only [CString.str] at h ⊢
  clear hn
  induction commands generalizing bytes with
  | nil =>
    rw [h.eq]
    rfl
  | cons command commands ih =>
    have hstr := (h.cons_str id hnul).1
    have hrest := (h.cons_str id hnul).2.2
    have hcommand : 0 ∉ command := by
      intro h0
      apply hnul
      rw [h.eq, List.flatten_cons]
      exact List.mem_append_left _ h0
    rw [hstr, sendStringWithDelay_command t interval (h.pieces command List.mem_cons_self) hcommand,
      List.map_cons, List.flatten_cons, ih _ hrest h.tail]

/-! ## Bounds -/

/-- All lookups are in the tables. -/
def InTables (acts : List Act) : Prop :=
  ∀ asciiCode, .outOfTable asciiCode ∉ acts

/-- The loop ends at the terminator, and reads nothing behind it or behind the tables. -/
def StaysInBounds (s : CString) : Prop :=
  ∃ outputs, (∀ n, s.bytes.length < n → sendString t interval n s.str = .finished outputs ()) ∧
    ∀ acts ∈ outputs, InTables acts

/-- A command that sends a character sends an ASCII character. -/
def IsAscii : List UInt8 → Prop
  | [asciiCode] => asciiCode < 0x80
  | _ => True

/-- The string divides into commands, and what it sends as a character is ASCII. -/
def Regular (s : CString) : Prop :=
  ∃ commands, Divides IsCommand s.bytes commands ∧ ∀ command ∈ commands, IsAscii command

theorem delayAct_ne_outOfTable (ms : ℕ) (asciiCode : UInt8) :
    delayAct t ms ≠ .outOfTable asciiCode := by
  unfold delayAct
  split_ifs <;> simp

theorem inTables_sendChar (asciiCode : UInt8) :
    InTables (sendCharWithDelay t asciiCode interval) ↔ asciiCode < 0x80 := by
  rw [UInt8.lt_iff_toNat_lt]
  have h80 : (0x80 : UInt8).toNat = 128 := rfl
  rw [h80]
  constructor
  · intro h
    by_contra hlarge
    apply h asciiCode
    rw [sendCharWithDelay, dif_neg hlarge]
    exact List.mem_singleton_self _
  · intro h c hc
    rw [sendCharWithDelay, dif_pos h] at hc
    simp only [List.mem_append, List.mem_ite_nil_right, List.mem_cons, List.not_mem_nil,
      reduceCtorEq, or_self, and_false] at hc

/-- The lookups of a command are in the tables just if its character is ASCII. -/
theorem inTables_actsOf {command : List UInt8} (h : IsCommand command) :
    InTables (actsOf t interval command) ↔ IsAscii command := by
  have hacts := sendRound_command t interval h []
  rw [List.append_nil] at hacts
  match command, h with
  | asciiCode :: string, h =>
    by_cases hprefix : asciiCode = ssQmkPrefix
    · simp only [IsCommand, if_pos hprefix] at h
      match string, h with
      | code :: string, h =>
        refine iff_of_true ?_ trivial
        intro c hc
        simp only [sendRound, if_pos hprefix] at hacts
        by_cases hkey : code = ssTapCode ∨ code = ssDownCode ∨ code = ssUpCode
        · simp only [if_pos hkey] at h hacts
          obtain ⟨keycode, rfl⟩ := List.length_eq_one_iff.mp h
          rw [← (Prod.mk.inj (Option.some.inj hacts)).2] at hc
          split_ifs at hc <;> simp at hc
        · simp only [if_neg hkey] at h hacts
          by_cases hdelay : code = ssDelayCode
          · simp only [if_pos hdelay] at h hacts
            obtain ⟨ms, hms⟩ := sendDelay_append h 0
            have halone := hms []
            rw [List.append_nil] at halone
            rw [halone] at hacts
            rw [← (Prod.mk.inj (Option.some.inj hacts)).2] at hc
            rcases List.mem_pair.mp hc with hc | hc
            · exact delayAct_ne_outOfTable t ms c hc.symm
            · exact absurd hc (by simp)
          · simp only [if_neg hdelay] at h hacts
            rw [← (Prod.mk.inj (Option.some.inj hacts)).2] at hc
            simp at hc
    · simp only [IsCommand, if_neg hprefix] at h
      subst h
      simp only [sendRound, if_neg hprefix] at hacts
      rw [← (Prod.mk.inj (Option.some.inj hacts)).2]
      exact inTables_sendChar t interval asciiCode

/-- Sending a string stays in bounds just for regular strings, and sending a character for
ASCII characters. -/
theorem staysInBounds_iff (s : CString) (asciiCode : UInt8) :
    (StaysInBounds t interval s ∧ InTables (sendCharWithDelay t asciiCode interval)) ↔
      (Regular s ∧ asciiCode < 0x80) := by
  refine and_congr ?_ (inTables_sendChar t interval asciiCode)
  constructor
  · rintro ⟨outputs, hsend, htables⟩
    obtain ⟨commands, hdivides, rfl⟩ := (scan_iff (reads_sendRound t interval) s outputs).mp hsend
    refine ⟨commands, hdivides, fun command hcommand => ?_⟩
    exact (inTables_actsOf t interval (hdivides.pieces command hcommand)).mp
      (htables _ (List.mem_map_of_mem hcommand))
  · rintro ⟨commands, hdivides, hascii⟩
    refine ⟨_, (scan_iff (reads_sendRound t interval) s _).mpr ⟨commands, hdivides, rfl⟩, ?_⟩
    intro acts hacts
    obtain ⟨command, hcommand, rfl⟩ := List.mem_map.mp hacts
    exact (inTables_actsOf t interval (hdivides.pieces command hcommand)).mpr
      (hascii command hcommand)

/-- A string that is a prefix and nothing more. -/
def barePrefix : CString where
  bytes := [ssQmkPrefix]
  no_nul := by decide

/-- The loop takes the terminator of a string that ends in a prefix for the code of a
command. -/
theorem not_staysInBounds_barePrefix :
    ¬ ∀ (t : Tables) (interval : UInt8) (s : CString) (asciiCode : UInt8),
      StaysInBounds t interval s ∧ InTables (sendCharWithDelay t asciiCode interval) := by
  intro h
  obtain ⟨⟨outputs, hsend, -⟩, -⟩ := h defaultTables 0 barePrefix 0
  have hover : sendString defaultTables 0 2 barePrefix.str = .overrun := rfl
  have hrun := hsend 2 (by decide)
  rw [hover] at hrun
  exact absurd hrun (by simp)

end Macro
end VialQmk
