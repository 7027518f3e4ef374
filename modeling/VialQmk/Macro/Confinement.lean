import VialQmk.Macro.Playback
import VialQmk.Vial.RawHid
import Mathlib.Logic.Relation
import Mathlib.Order.WellFounded
import Mathlib.Tactic.Common

/-!
# Macros - confinement

A command that lacks its last bytes takes the NUL of the macro for one of them, and the
playback goes on with the next macro.  The macro behind the last NUL starts at the end of
the region, a character beyond ASCII is looked up behind the end of the tables, and a macro
that plays its own keycode starts itself, also over a tap dance.

Main results:

- Definition {lit}`commands`: the commands of a macro, if all of them are complete.
- Theorem {lit}`plays_iff`: the playback of the bytes up to a NUL stays there if and only
  if they are complete commands, and then plays these.
- Theorem {lit}`confined_iff`: the playback of a macro is confined if and only if the macros
  it leads to are complete and do not start each other without end.
-/

namespace VialQmk
namespace Macro

variable {L σ : Type} (c : Vial.Config L) (t : Tables) (m : Memory UInt8) (fw : Firmware σ)

/-! ## Confined playbacks -/

/-- The address is one of the macro region. -/
def InRegion (x : ℕ) : Prop :=
  c.dynamicKeymapMacroEepromAddr ≤ x ∧
    x < c.dynamicKeymapMacroEepromAddr + c.dynamicKeymapMacroEepromSize

/-- The macro a byte of the region belongs to: as many NULs stand in front of it. -/
def macroIndex (x : ℕ) : ℕ :=
  (m.load c.dynamicKeymapMacroEepromAddr (x - c.dynamicKeymapMacroEepromAddr)).count 0

/-- A round starts in the macro or at its NUL, reads in the region, acts on bytes of the
macro only, and looks up nothing behind the tables. -/
structure Round.Confined (id : UInt8) (r : Round) : Prop where
  starts : InRegion c r.start ∧ macroIndex c m r.start = id.toNat
  reads : ∀ x, r.start ≤ x → x < r.start + r.length → InRegion c x
  plays : r.acts ≠ [] → ∀ x, r.start ≤ x → x < r.start + r.length →
    macroIndex c m x = id.toNat ∧ m x ≠ 0
  table : ∀ asciiCode, Act.outOfTable asciiCode ∉ r.acts

/-- The playback ends and is confined.  The keyboard returns from each of its acts, and each macro
that is started on the way is confined, too. -/
inductive Confined : UInt8 → σ → Prop
  | intro (id : UInt8) (s : σ) (fuel : ℕ) (play : Playback)
      (hsend : dynamicKeymapMacroSend t c m fuel id = some play)
      (hskipped : ∀ x ∈ play.skipped, InRegion c x)
      (hrounds : ∀ r ∈ play.rounds, r.Confined c m id)
      (hreturns : ∀ before a after, play.acts = before ++ a :: after → a.execs = true →
        fw.returns s before a)
      (hstarted : ∀ before a after, play.acts = before ++ a :: after → a.execs = true →
        ∀ id' s', fw.starts s before a id' s' → Confined id' s') :
      Confined id s

/-! ## Complete macros -/

/-- A command of a macro. -/
inductive Command
  | char (asciiCode : UInt8)
  | basic (code keycode : UInt8)
  | ext (code : UInt8) (keycode : ℕ)
  | delay (ms : ℕ)
  | unknown
deriving DecidableEq

/-- What a command does. -/
def Command.acts : Command → List Act
  | .char asciiCode => sendCharWithDelay t asciiCode t.dynamicKeymapMacroDelay
  | .basic code keycode =>
    [if code = ssTapCode then .tapCode keycode.toNat
      else if code = ssDownCode then .registerCode keycode.toNat
      else .unregisterCode keycode.toNat, .waitMs t.tapCodeDelay.toNat]
  | .ext code keycode => [extAct code keycode]
  | .delay ms => [.waitMs ms]
  | .unknown => []

/-- The commands of a macro: every character is ASCII and no keycode lacks a byte.  The
end may lack the code behind a prefix, or the bytes of a delay; both bytes can be missing
only if the macro is not the last one of the region. -/
def commands (last : Bool) : List UInt8 → Option (List Command)
  | [] => some []
  | byte :: bytes =>
    if byte = ssQmkPrefix then
      match bytes with
      | [] => some []
      | code :: bytes =>
        if code = ssTapCode ∨ code = ssDownCode ∨ code = ssUpCode then
          match bytes with
          | [] => none
          | keycode :: bytes => (commands last bytes).map (.basic code keycode :: ·)
        else if code = vialMacroExtTap ∨ code = vialMacroExtDown ∨ code = vialMacroExtUp then
          match bytes with
          | low :: high :: bytes => (commands last bytes).map (.ext code (extKeycode low high) :: ·)
          | _ => none
        else if code = ssDelayCode then
          match bytes with
          | [] => if last then none else some []
          | [_] => some []
          | d0 :: d1 :: bytes => (commands last bytes).map (.delay (delayMs d0 d1) :: ·)
        else (commands last bytes).map (.unknown :: ·)
    else if byte.toNat < 128 then (commands last bytes).map (.char byte :: ·)
    else none

/-- The pieces of the region between the NULs.  The last piece is behind the last NUL. -/
def macros : List (List UInt8) :=
  (m.load c.dynamicKeymapMacroEepromAddr c.dynamicKeymapMacroEepromSize).splitOn 0

/-- The macro is no piece of the region at all, or it has a NUL and all its commands. -/
def Complete (id : UInt8) : Prop :=
  id.toNat < c.dynamicKeymapMacroCount → id.toNat < (macros c m).length →
    id.toNat + 1 < (macros c m).length ∧
      (commands (id.toNat + 2 = (macros c m).length) ((macros c m)[id.toNat]?.getD [])).isSome

/-- The macro is one that is played, and these are the acts of its commands. -/
def Does (id : UInt8) (acts : List Act) : Prop :=
  id.toNat < c.dynamicKeymapMacroCount ∧ ∃ bytes cmds, (macros c m)[id.toNat]? = some bytes ∧
    commands (id.toNat + 2 = (macros c m).length) bytes = some cmds ∧
    acts = cmds.flatMap (Command.acts t)

/-- The keyboard returns from all that a macro does in a state. -/
def Returns (p : UInt8 × σ) : Prop :=
  ∀ before a after, Does c t m p.1 (before ++ a :: after) → a.execs = true →
    fw.returns p.2 before a

/-- In the course of the one macro the other is started. -/
def Calls (p p' : UInt8 × σ) : Prop :=
  ∃ before a after, Does c t m p.1 (before ++ a :: after) ∧ a.execs = true ∧
    fw.starts p.2 before a p'.1 p'.2

/-! ## Playing up to a NUL -/

/-- The bytes stand at the address, with a NUL behind them. -/
def Spells : ℕ → List UInt8 → Prop
  | p, [] => m p = 0
  | p, byte :: bytes => m p = byte ∧ byte ≠ 0 ∧ Spells (p + 1) bytes

/-- A round stays in a macro with its NUL at {lit}`hi`, and in a region that ends at
{lit}`fin`. -/
structure Round.Within (hi fin : ℕ) (r : Round) : Prop where
  starts : r.start ≤ hi
  reads : r.start + r.length ≤ fin
  plays : r.acts ≠ [] → r.start + r.length ≤ hi
  table : ∀ asciiCode, Act.outOfTable asciiCode ∉ r.acts

/-- The playback from an address on ends, all of its rounds stay within, and it does the
acts. -/
inductive Plays (hi fin : ℕ) : ℕ → List Act → Prop
  | stop {p : ℕ} {r : Round} (hround : playRound t m p = (false, r)) (hwithin : r.Within hi fin) :
      Plays hi fin p r.acts
  | next {p : ℕ} {r : Round} {acts : List Act} (hround : playRound t m p = (true, r))
      (hwithin : r.Within hi fin) (hrest : Plays hi fin (p + r.length) acts) :
      Plays hi fin p (r.acts ++ acts)

section Rounds

variable {t m} {hi fin p : ℕ} {acts : List Act} {r : Round}

theorem plays_stop (hround : playRound t m p = (false, r)) :
    Plays t m hi fin p acts ↔ r.Within hi fin ∧ acts = r.acts := by
  constructor
  · intro h
    cases h with
    | stop hround' hwithin =>
      rw [hround, Prod.mk.injEq] at hround'
      rw [hround'.2]
      exact ⟨hwithin, rfl⟩
    | next hround' =>
      rw [hround, Prod.mk.injEq] at hround'
      exact absurd hround'.1 Bool.false_ne_true
  · rintro ⟨hwithin, rfl⟩
    exact .stop hround hwithin

theorem plays_next (hround : playRound t m p = (true, r)) :
    Plays t m hi fin p acts ↔ r.Within hi fin ∧
      ∃ rest, acts = r.acts ++ rest ∧ Plays t m hi fin (p + r.length) rest := by
  constructor
  · intro h
    cases h with
    | stop hround' =>
      rw [hround, Prod.mk.injEq] at hround'
      exact absurd hround'.1.symm Bool.false_ne_true
    | next hround' hwithin hrest =>
      rw [hround, Prod.mk.injEq] at hround'
      rw [hround'.2]
      exact ⟨hwithin, _, rfl, hrest⟩
  · rintro ⟨hwithin, rest, rfl, hrest⟩
    exact .next hround hwithin hrest

theorem playRound_start (p : ℕ) : (playRound t m p).2.start = p := by
  unfold playRound
  dsimp only
  split_ifs <;> rfl

/-- Nothing is played behind the NUL. -/
theorem not_plays_behind (h : hi < p) : ¬ Plays t m hi fin p acts := by
  intro hplays
  have hstart := playRound_start (t := t) (m := m) p
  cases hplays with
  | stop hround hwithin =>
    rw [hround] at hstart
    exact absurd hwithin.starts (by rw [hstart]; omega)
  | next hround hwithin =>
    rw [hround] at hstart
    exact absurd hwithin.starts (by rw [hstart]; omega)

/-- The acts of an ASCII character look up nothing behind the tables. -/
theorem outOfTable_notMem_sendChar {asciiCode interval : UInt8} (hascii : asciiCode.toNat < 128)
    (code : UInt8) : Act.outOfTable code ∉ sendCharWithDelay t asciiCode interval := by
  rw [sendCharWithDelay, dif_pos hascii]
  simp [List.mem_append, List.mem_ite_nil_right]

/-- A round that starts with a prefix and a code. -/
theorem playRound_code {code : UInt8} (h0 : m p = ssQmkPrefix) (h1 : m (p + 1) = code)
    (hcode : code ≠ 0) :
    playRound t m p =
      if code = ssTapCode ∨ code = ssDownCode ∨ code = ssUpCode then
        (true, ⟨p, 3, if m (p + 2) ≠ 0 then
          sendStringWithDelay t t.tapCodeDelay none [ssQmkPrefix, code, m (p + 2), 0] else []⟩)
      else if code = vialMacroExtTap ∨ code = vialMacroExtDown ∨ code = vialMacroExtUp then
        if m (p + 2) ≠ 0 then
          (true, ⟨p, 4, if m (p + 3) ≠ 0 then [extAct code (extKeycode (m (p + 2)) (m (p + 3)))]
            else []⟩)
        else (true, ⟨p, 3, []⟩)
      else if code = ssDelayCode then
        if m (p + 2) = 0 ∨ m (p + 3) = 0 then (false, ⟨p, 4, []⟩)
        else (true, ⟨p, 4, [.waitMs (delayMs (m (p + 2)) (m (p + 3)))]⟩)
      else (true, ⟨p, 2, []⟩) := by
  rw [playRound]
  simp only [h0, h1]
  rw [if_neg (by decide), if_true, if_neg hcode]

/-- A character is sent as a string of its own. -/
theorem playRound_char {asciiCode : UInt8} (h0 : m p = asciiCode) (hnul : asciiCode ≠ 0)
    (hprefixed : asciiCode ≠ ssQmkPrefix) :
    playRound t m p =
      (true, ⟨p, 1, sendCharWithDelay t asciiCode t.dynamicKeymapMacroDelay⟩) := by
  rw [playRound]
  simp only [h0]
  rw [if_neg hnul, if_neg hprefixed, sendStringWithDelay, if_neg hnul, if_neg hprefixed,
    sendStringWithDelay, if_pos rfl, List.append_nil]

/-- A keycode is sent as a string of its own. -/
theorem sendString_basic {code keycode : UInt8}
    (hcode : code = ssTapCode ∨ code = ssDownCode ∨ code = ssUpCode) :
    sendStringWithDelay t t.tapCodeDelay none [ssQmkPrefix, code, keycode, 0] =
      (Command.basic code keycode).acts t := by
  rw [sendStringWithDelay, if_neg (by decide), if_pos rfl, if_pos hcode, sendStringWithDelay,
    if_pos rfl, Command.acts]

/-- A command is played, and the commands behind it. -/
theorem plays_command {k : ℕ} {cmd : Command} {parsed : Option (List Command)}
    (hround : playRound t m p = (true, ⟨p, k, cmd.acts t⟩)) (hk : p + k ≤ hi) (hfin : hi < fin)
    (htable : ∀ asciiCode, Act.outOfTable asciiCode ∉ cmd.acts t)
    (hrest : ∀ rest, Plays t m hi fin (p + k) rest ↔
      ∃ cmds, parsed = some cmds ∧ rest = cmds.flatMap (Command.acts t)) :
    Plays t m hi fin p acts ↔
      ∃ cmds, parsed.map (cmd :: ·) = some cmds ∧ acts = cmds.flatMap (Command.acts t) := by
  rw [plays_next hround]
  constructor
  · rintro ⟨-, rest, rfl, hplays⟩
    rcases (hrest rest).mp hplays with ⟨cmds, rfl, rfl⟩
    exact ⟨cmd :: cmds, rfl, rfl⟩
  · rintro ⟨cmds', hparsed, rfl⟩
    rw [Option.map_eq_some_iff] at hparsed
    rcases hparsed with ⟨cmds, rfl, rfl⟩
    refine ⟨⟨?_, ?_, fun _ => hk, htable⟩, _, rfl, (hrest _).mpr ⟨cmds, rfl, rfl⟩⟩
    · exact Nat.le_trans (Nat.le_add_right p k) hk
    · exact Nat.le_trans hk (Nat.le_of_lt hfin)

/-- The playback ends here. -/
theorem plays_end {k : ℕ} (hround : playRound t m p = (false, ⟨p, k, []⟩)) (hp : p ≤ hi) :
    Plays t m hi fin p acts ↔ p + k ≤ fin ∧ acts = [] := by
  rw [plays_stop hround]
  constructor
  · rintro ⟨hwithin, rfl⟩
    exact ⟨hwithin.reads, rfl⟩
  · rintro ⟨hreads, rfl⟩
    exact ⟨⟨hp, hreads, fun hsome => absurd rfl hsome, fun _ => List.not_mem_nil⟩, rfl⟩

/-- The round has taken the NUL for a byte of a command. -/
theorem not_plays_swallow (hround : playRound t m p = (true, r)) (hbehind : hi < p + r.length) :
    ¬ Plays t m hi fin p acts := by
  rw [plays_next hround]
  rintro ⟨-, rest, -, hrest⟩
  exact not_plays_behind hbehind hrest

/-- Other commands look up nothing. -/
theorem outOfTable_notMem {cmd : Command} {asciiCode : UInt8}
    (hchar : ∀ code, cmd ≠ .char code) : Act.outOfTable asciiCode ∉ cmd.acts t := by
  cases cmd with
  | char code => exact absurd rfl (hchar code)
  | basic code keycode =>
    rw [Command.acts]
    split_ifs <;> simp
  | ext code keycode =>
    rw [Command.acts, extAct]
    split_ifs <;> simp
  | delay ms => simp [Command.acts]
  | unknown => exact List.not_mem_nil

end Rounds

/-- The playback of a text that ends with a NUL stays there if and only if the text
consists of complete commands, and then it does what they say. -/
theorem plays_iff {hi fin p : ℕ} {last : Bool} {bytes : List UInt8} {acts : List Act}
    (hspells : Spells m p bytes) (hhi : hi = p + bytes.length) (hfin : hi < fin)
    (hlast : last = true ↔ hi + 1 = fin) :
    Plays t m hi fin p acts ↔
      ∃ cmds, commands last bytes = some cmds ∧ acts = cmds.flatMap (Command.acts t) := by
  induction bytes using commands.induct last generalizing p acts with
  | case1 =>
    have hround : playRound t m p = (false, ⟨p, 1, []⟩) := by
      rw [playRound, if_pos (show m p = 0 from hspells)]
    rw [plays_end hround (by omega), commands]
    simp [show p + 1 ≤ fin by rw [List.length_nil] at hhi; omega]
  | case2 =>
    rcases hspells with ⟨h0, -, (h1 : m (p + 1) = 0)⟩
    have hround : playRound t m p = (false, ⟨p, 2, []⟩) := by
      rw [playRound]
      simp only [h0]
      rw [if_neg (by decide), if_true, if_pos h1]
    rw [plays_end hround (by omega), commands]
    simp [show p + 2 ≤ fin by rw [List.length_singleton] at hhi; omega]
  | case3 code hcode =>
    rcases hspells with ⟨h0, -, h1, hne1, (h2 : m (p + 2) = 0)⟩
    have hround := playRound_code (t := t) h0 h1 hne1
    rw [if_pos hcode, if_neg (not_not.mpr h2)] at hround
    have hnone : commands last [ssQmkPrefix, code] = none := by
      simp only [commands, if_true, if_pos hcode]
    rw [hnone]
    simp only [reduceCtorEq, false_and, exists_false, iff_false]
    apply not_plays_swallow hround
    simp only [List.length_cons, List.length_nil] at hhi ⊢
    omega
  | case4 code hcode keycode bytes ih =>
    rcases hspells with ⟨h0, -, h1, hne1, h2, hne2, h3⟩
    have hround := playRound_code (t := t) h0 h1 hne1
    rw [if_pos hcode, h2, if_pos hne2, sendString_basic hcode] at hround
    have hparsed : commands last (ssQmkPrefix :: code :: keycode :: bytes) =
        (commands last bytes).map (.basic code keycode :: ·) := by
      simp only [commands, if_true, if_pos hcode]
    simp only [List.length_cons] at hhi
    rw [hparsed]
    apply plays_command hround (by omega) hfin
    · intro asciiCode
      apply outOfTable_notMem
      exact nofun
    · exact fun rest => ih h3 (by omega)
  | case5 code hcode hext low high bytes ih =>
    rcases hspells with ⟨h0, -, h1, hne1, h2, hne2, h3, hne3, h4⟩
    have hround := playRound_code (t := t) h0 h1 hne1
    rw [if_neg hcode, if_pos hext, h2, if_pos hne2, h3, if_pos hne3] at hround
    have hparsed : commands last (ssQmkPrefix :: code :: low :: high :: bytes) =
        (commands last bytes).map (.ext code (extKeycode low high) :: ·) := by
      simp only [commands, if_true, if_neg hcode, if_pos hext]
    simp only [List.length_cons] at hhi
    rw [hparsed]
    apply plays_command hround (by omega) hfin
    · intro asciiCode
      apply outOfTable_notMem
      exact nofun
    · exact fun rest => ih h4 (by omega)
  | case6 code bytes hcode hext hshort =>
    rcases hspells with ⟨h0, -, h1, hne1, h2⟩
    have hround := playRound_code (t := t) h0 h1 hne1
    rw [if_neg hcode, if_pos hext] at hround
    have hnone : commands last (ssQmkPrefix :: code :: bytes) = none := by
      rcases bytes with _ | ⟨low, _ | ⟨high, bytes⟩⟩
      · simp only [commands, if_true, if_neg hcode, if_pos hext]
      · simp only [commands, if_true, if_neg hcode, if_pos hext]
      · exact absurd rfl (hshort low high bytes)
    rw [hnone]
    simp only [reduceCtorEq, false_and, exists_false, iff_false]
    cases bytes with
    | nil =>
      rw [if_neg (not_not.mpr (show m (p + 2) = 0 from h2))] at hround
      apply not_plays_swallow hround
      simp only [List.length_cons, List.length_nil] at hhi ⊢
      omega
    | cons low bytes =>
      cases bytes with
      | nil =>
        rcases h2 with ⟨h2, hne2, (h3 : m (p + 3) = 0)⟩
        rw [h2, if_pos hne2, if_neg (not_not.mpr h3)] at hround
        apply not_plays_swallow hround
        simp only [List.length_cons, List.length_nil] at hhi ⊢
        omega
      | cons high bytes => exact absurd rfl (hshort low high bytes)
  | case7 hlast' hcode hext =>
    rcases hspells with ⟨h0, -, h1, hne1, (h2 : m (p + 2) = 0)⟩
    have hround := playRound_code (t := t) h0 h1 hne1
    rw [if_neg hcode, if_neg hext, if_pos rfl, if_pos (Or.inl h2)] at hround
    have hfin' := hlast.mp hlast'
    simp only [List.length_cons, List.length_nil] at hhi
    rw [plays_end hround (by omega)]
    simp only [commands, if_true, if_neg hcode, if_neg hext, hlast', reduceCtorEq, false_and,
      exists_false, iff_false, not_and]
    omega
  | case8 hlast' hcode hext =>
    rcases hspells with ⟨h0, -, h1, hne1, (h2 : m (p + 2) = 0)⟩
    have hround := playRound_code (t := t) h0 h1 hne1
    rw [if_neg hcode, if_neg hext, if_pos rfl, if_pos (Or.inl h2)] at hround
    have hfin' : ¬ hi + 1 = fin := fun h => hlast' (hlast.mpr h)
    simp only [List.length_cons, List.length_nil] at hhi
    rw [plays_end hround (by omega)]
    simp [commands, hcode, hext, hlast', show p + 4 ≤ fin by omega]
  | case9 d0 hcode hext =>
    rcases hspells with ⟨h0, -, h1, hne1, h2, hne2, (h3 : m (p + 3) = 0)⟩
    have hround := playRound_code (t := t) h0 h1 hne1
    rw [if_neg hcode, if_neg hext, if_pos rfl, if_pos (Or.inr h3)] at hround
    simp only [List.length_cons, List.length_nil] at hhi
    rw [plays_end hround (by omega)]
    simp [commands, hcode, hext, show p + 4 ≤ fin by omega]
  | case10 d0 d1 bytes hcode hext ih =>
    rcases hspells with ⟨h0, -, h1, hne1, h2, hne2, h3, hne3, h4⟩
    have hround := playRound_code (t := t) h0 h1 hne1
    rw [if_neg hcode, if_neg hext, if_pos rfl, h2, h3, if_neg (not_or.mpr ⟨hne2, hne3⟩)] at hround
    have hparsed : commands last (ssQmkPrefix :: ssDelayCode :: d0 :: d1 :: bytes) =
        (commands last bytes).map (.delay (delayMs d0 d1) :: ·) := by
      simp only [commands, if_true, if_neg hcode, if_neg hext]
    simp only [List.length_cons] at hhi
    rw [hparsed]
    apply plays_command hround (by omega) hfin
    · intro asciiCode
      apply outOfTable_notMem
      exact nofun
    · exact fun rest => ih h4 (by omega)
  | case11 code bytes hcode hext hdelay ih =>
    rcases hspells with ⟨h0, -, h1, hne1, h2⟩
    have hround := playRound_code (t := t) h0 h1 hne1
    rw [if_neg hcode, if_neg hext, if_neg hdelay] at hround
    have hparsed : commands last (ssQmkPrefix :: code :: bytes) =
        (commands last bytes).map (.unknown :: ·) := by
      rw [commands.eq_def]
      simp only [if_true, if_neg hcode, if_neg hext, if_neg hdelay]
    simp only [List.length_cons] at hhi
    rw [hparsed]
    apply plays_command hround (by omega) hfin
    · intro asciiCode
      apply outOfTable_notMem
      exact nofun
    · exact fun rest => ih h2 (by omega)
  | case12 asciiCode bytes hprefixed hascii ih =>
    rcases hspells with ⟨h0, hne0, h1⟩
    have hround := playRound_char (t := t) h0 hne0 hprefixed
    have hparsed : commands last (asciiCode :: bytes) =
        (commands last bytes).map (.char asciiCode :: ·) := by
      rw [commands.eq_def]
      simp only [if_neg hprefixed, if_pos hascii]
    simp only [List.length_cons] at hhi
    rw [hparsed]
    apply plays_command hround (by omega) hfin
    · exact outOfTable_notMem_sendChar hascii
    · exact fun rest => ih h1 (by omega)
  | case13 asciiCode bytes hprefixed hascii =>
    rcases hspells with ⟨h0, hne0, h1⟩
    have hround := playRound_char (t := t) h0 hne0 hprefixed
    have hnone : commands last (asciiCode :: bytes) = none := by
      rw [commands.eq_def]
      simp only [if_neg hprefixed, if_neg hascii]
    rw [plays_next hround, hnone]
    simp only [reduceCtorEq, false_and, exists_false, iff_false, not_and]
    intro hwithin
    have htable := hwithin.table asciiCode
    rw [sendCharWithDelay, dif_neg hascii] at htable
    exact absurd (List.mem_singleton_self _) htable

section Rounds

variable {t m} {hi fin p : ℕ} {acts : List Act}

theorem plays_of_playback {fuel : ℕ} {rounds : List Round}
    (hplay : playback t m fuel p = some rounds) (hwithin : ∀ r ∈ rounds, r.Within hi fin) :
    Plays t m hi fin p (rounds.flatMap Round.acts) := by
  induction fuel generalizing p rounds with
  | zero => exact absurd hplay nofun
  | succ fuel ih =>
    rw [playback] at hplay
    rcases hround : playRound t m p with ⟨_ | _, r⟩
    · rw [hround, Option.some.injEq] at hplay
      subst hplay
      rw [List.flatMap_singleton]
      exact .stop hround (hwithin r (List.mem_singleton_self r))
    · rw [hround, Option.map_eq_some_iff] at hplay
      rcases hplay with ⟨rest, hrest, rfl⟩
      rw [List.flatMap_cons]
      rw [List.forall_mem_cons] at hwithin
      exact .next hround hwithin.1 (ih hrest hwithin.2)

theorem Plays.playback (h : Plays t m hi fin p acts) :
    ∃ fuel rounds, Macro.playback t m fuel p = some rounds ∧
      (∀ r ∈ rounds, r.Within hi fin ∧ p ≤ r.start) ∧ rounds.flatMap Round.acts = acts := by
  induction h with
  | @stop p r hround hwithin =>
    have hstart := playRound_start (t := t) (m := m) p
    rw [hround] at hstart
    refine ⟨1, [r], ?_, ?_, List.flatMap_singleton _ _⟩
    · rw [Macro.playback, hround]
    · intro r' hr'
      rw [List.mem_singleton] at hr'
      rw [hr']
      exact ⟨hwithin, Nat.le_of_eq hstart.symm⟩
  | @next p r acts hround hwithin _ ih =>
    have hstart := playRound_start (t := t) (m := m) p
    rw [hround] at hstart
    rcases ih with ⟨fuel, rounds, hplay, hrounds, rfl⟩
    refine ⟨fuel + 1, r :: rounds, ?_, ?_, List.flatMap_cons⟩
    · rw [Macro.playback, hround]
      dsimp only
      rw [hplay]
      rfl
    · rw [List.forall_mem_cons]
      refine ⟨⟨hwithin, Nat.le_of_eq hstart.symm⟩, fun r' hr' => ?_⟩
      rcases hrounds r' hr' with ⟨hwithin', hle⟩
      exact ⟨hwithin', Nat.le_trans (Nat.le_add_right p r.length) hle⟩

end Rounds

/-! ## Finding the macro -/

theorem length_splitOn (bytes : List UInt8) :
    (bytes.splitOn 0).length = bytes.count 0 + 1 := by
  induction bytes with
  | nil => rfl
  | cons byte bytes ih =>
    rw [List.splitOn_cons_eq_if_modifyHead, List.count_cons]
    split_ifs
    · rw [List.length_cons, ih]
    · rw [List.length_modifyHead, ih, Nat.add_zero]

theorem load_succ (p k : ℕ) : m.load p (k + 1) = m p :: m.load (p + 1) k := by
  rw [Nat.add_comm k 1, Memory.load_add]
  rfl

/-- The loop stops as soon as it has skipped as many NULs as the number of the macro says.
What follows is split as the rest of the region. -/
theorem skipMacros_cases (k p id : ℕ) :
    skipMacros m k p id = none ∧ (m.load p k).count 0 < id ∨
      ∃ i ≤ k, skipMacros m k p id = some (p + i) ∧ (m.load p i).count 0 = id ∧
        (∀ j < i, (m.load p j).count 0 < id) ∧
        ((m.load p k).splitOn 0).drop id = (m.load (p + i) (k - i)).splitOn 0 := by
  induction k generalizing p id with
  | zero =>
    cases id with
    | zero => exact Or.inr ⟨0, Nat.le_refl 0, rfl, rfl, nofun, rfl⟩
    | succ id => exact Or.inl ⟨rfl, Nat.succ_pos id⟩
  | succ k ih =>
    cases id with
    | zero => exact Or.inr ⟨0, Nat.zero_le _, rfl, rfl, nofun, rfl⟩
    | succ id =>
      have hnext : ∀ i, p + 1 + i = p + (i + 1) := fun i => by omega
      rw [skipMacros, load_succ, List.count_cons, List.splitOn_cons_eq_if_modifyHead]
      by_cases hnul : m p = 0
      · rw [if_pos hnul, if_pos (beq_iff_eq.mpr hnul), if_pos (beq_iff_eq.mpr hnul)]
        rcases ih (p + 1) id with ⟨hnone, hcount⟩ | ⟨i, hi, hsome, hcount, hbefore, hdrop⟩
        · exact Or.inl ⟨hnone, Nat.succ_lt_succ hcount⟩
        · right
          refine ⟨i + 1, Nat.succ_le_succ hi, ?_, ?_, ?_, ?_⟩
          · rw [hsome, hnext]
          · rw [load_succ, List.count_cons, if_pos (beq_iff_eq.mpr hnul), hcount]
          · intro j hj
            cases j with
            | zero => exact Nat.succ_pos id
            | succ j =>
              rw [load_succ, List.count_cons, if_pos (beq_iff_eq.mpr hnul)]
              exact Nat.succ_lt_succ (hbefore j (Nat.lt_of_succ_lt_succ hj))
          · rw [List.drop_succ_cons, hdrop, Nat.add_sub_add_right, hnext]
      · have hne : ¬ (m p == 0) = true := fun h => hnul (beq_iff_eq.mp h)
        rw [if_neg hnul, if_neg hne, if_neg hne]
        rcases ih (p + 1) (id + 1) with ⟨hnone, hcount⟩ | ⟨i, hi, hsome, hcount, hbefore, hdrop⟩
        · exact Or.inl ⟨hnone, hcount⟩
        · right
          refine ⟨i + 1, Nat.succ_le_succ hi, ?_, ?_, ?_, ?_⟩
          · rw [hsome, hnext]
          · rw [load_succ, List.count_cons, if_neg hne, hcount]
          · intro j hj
            cases j with
            | zero => exact Nat.succ_pos id
            | succ j =>
              rw [load_succ, List.count_cons, if_neg hne]
              exact hbefore j (Nat.lt_of_succ_lt_succ hj)
          · rw [Nat.add_sub_add_right, ← hnext i, ← hdrop]
            cases (m.load (p + 1) k).splitOn 0 with
            | nil => rfl
            | cons bytes rest => rfl

section Texts

variable {m}

/-- The bytes of a memory up to the first NUL. -/
theorem spells_load {p k : ℕ} {bytes tail : List UInt8} (hload : m.load p k = bytes ++ 0 :: tail)
    (hnul : 0 ∉ bytes) : Spells m p bytes := by
  induction bytes generalizing p k with
  | nil =>
    cases k with
    | zero => exact absurd hload nofun
    | succ k =>
      rw [load_succ] at hload
      exact (List.cons.inj hload).1
  | cons byte bytes ih =>
    cases k with
    | zero => exact absurd hload nofun
    | succ k =>
      rw [load_succ] at hload
      rw [List.mem_cons, not_or] at hnul
      rcases List.cons.inj hload with ⟨hbyte, hrest⟩
      exact ⟨hbyte, Ne.symm hnul.1, ih hrest hnul.2⟩

theorem Spells.nul {p : ℕ} {bytes : List UInt8} (h : Spells m p bytes) :
    m (p + bytes.length) = 0 := by
  induction bytes generalizing p with
  | nil => exact h
  | cons byte bytes ih =>
    rw [List.length_cons, ← Nat.add_assoc, Nat.add_right_comm]
    exact ih h.2.2

theorem Spells.text {p : ℕ} {bytes : List UInt8} (h : Spells m p bytes) {j : ℕ}
    (hj : j < bytes.length) : m (p + j) ≠ 0 := by
  induction bytes generalizing p j with
  | nil => exact absurd hj (Nat.not_lt_zero j)
  | cons byte bytes ih =>
    cases j with
    | zero =>
      rw [Nat.add_zero, h.1]
      exact h.2.1
    | succ j =>
      rw [Nat.add_comm j 1, ← Nat.add_assoc]
      exact ih h.2.2 (Nat.lt_of_succ_lt_succ hj)

/-- The NULs up to a byte of the text, or behind it. -/
theorem Spells.count {p : ℕ} {bytes : List UInt8} (h : Spells m p bytes) (j : ℕ) :
    (m.load p j).count 0 = 0 ↔ j ≤ bytes.length := by
  rw [List.count_eq_zero]
  constructor
  · intro hnone
    by_contra hlt
    apply hnone
    rw [← h.nul]
    exact List.mem_map.mpr ⟨bytes.length, List.mem_range.mpr (by omega), rfl⟩
  · intro hle hmem
    rcases List.mem_map.mp hmem with ⟨i, hi, hzero⟩
    rw [List.mem_range] at hi
    exact h.text (Nat.lt_of_lt_of_le hi hle) hzero

end Texts

/-- Where a macro is: it starts at {lit}`lo`, where the skipping ends, and its NUL is at
{lit}`hi`. -/
structure Located (id lo hi : ℕ) (bytes : List UInt8) : Prop where
  lo_le : c.dynamicKeymapMacroEepromAddr ≤ lo
  hi_eq : hi = lo + bytes.length
  hi_lt : hi < c.dynamicKeymapMacroEepromAddr + c.dynamicKeymapMacroEepromSize
  spells : Spells m lo bytes
  inside : ∀ x, InRegion c x → (macroIndex c m x = id ↔ lo ≤ x ∧ x ≤ hi)
  skip : skipMacros m c.dynamicKeymapMacroEepromSize c.dynamicKeymapMacroEepromAddr id = some lo
  piece : (macros c m)[id]? = some bytes
  count : id + 1 < (macros c m).length
  last : id + 2 = (macros c m).length ↔
    hi + 1 = c.dynamicKeymapMacroEepromAddr + c.dynamicKeymapMacroEepromSize

section Region

variable {c m} (hsize : 0 < c.dynamicKeymapMacroEepromSize)
  (hlast : m (c.dynamicKeymapMacroEepromAddr + c.dynamicKeymapMacroEepromSize - 1) = 0)
include hsize hlast

/-- There are fewer NULs than the number says, or just as many, or a macro. -/
theorem located (id : ℕ) :
    (skipMacros m c.dynamicKeymapMacroEepromSize c.dynamicKeymapMacroEepromAddr id = none ∧
      (macros c m).length ≤ id) ∨
    (skipMacros m c.dynamicKeymapMacroEepromSize c.dynamicKeymapMacroEepromAddr id =
        some (c.dynamicKeymapMacroEepromAddr + c.dynamicKeymapMacroEepromSize) ∧
      (macros c m).length = id + 1) ∨
    ∃ lo hi bytes, Located c m id lo hi bytes := by
  have hlength := length_splitOn
    (m.load c.dynamicKeymapMacroEepromAddr c.dynamicKeymapMacroEepromSize)
  have hzero : ∀ p n, p + n = c.dynamicKeymapMacroEepromAddr + c.dynamicKeymapMacroEepromSize →
      0 < n → 0 ∈ m.load p n := by
    intro p n hend hpos
    refine List.mem_map.mpr ⟨n - 1, List.mem_range.mpr (by omega), ?_⟩
    rw [← hlast, ← hend]
    congr 1
    omega
  rcases skipMacros_cases m c.dynamicKeymapMacroEepromSize c.dynamicKeymapMacroEepromAddr id with
    ⟨hnone, hcount⟩ | ⟨i, hi, hsome, hcount, hbefore, hdrop⟩
  · exact Or.inl ⟨hnone, by rw [macros, hlength]; omega⟩
  right
  by_cases hall : i = c.dynamicKeymapMacroEepromSize
  · left
    rw [hall] at hsome hcount
    exact ⟨hsome, by rw [macros, hlength, hcount]⟩
  right
  have hmem := hzero (c.dynamicKeymapMacroEepromAddr + i) (c.dynamicKeymapMacroEepromSize - i)
    (by omega) (by omega)
  rcases List.eq_append_cons_of_mem hmem with ⟨bytes, tail, hload, hnul⟩
  have hroom := congrArg List.length hload
  rw [Memory.load_length, List.length_append, List.length_cons] at hroom
  have hspells := spells_load hload hnul
  rw [hload, List.splitOn_append_cons_self_of_not_mem hnul] at hdrop
  have hmacros := congrArg List.length hdrop
  rw [List.length_drop, List.length_cons, length_splitOn tail] at hmacros
  refine ⟨c.dynamicKeymapMacroEepromAddr + i, _, bytes, by omega, rfl, by omega, hspells, ?_,
    hsome, ?_, ?_, ?_⟩
  · intro x hx
    rcases Nat.exists_eq_add_of_le hx.1 with ⟨j, rfl⟩
    rw [macroIndex, Nat.add_sub_cancel_left]
    by_cases hj : j < i
    · have hlt := hbefore j hj
      constructor
      · omega
      · omega
    · rcases Nat.exists_eq_add_of_le (Nat.le_of_not_lt hj) with ⟨k, rfl⟩
      have hinside := hspells.count k
      rw [Memory.load_add, List.count_append, hcount]
      omega
  · rw [macros, ← List.head?_drop, hdrop, List.head?_cons]
  · rw [macros]
    omega
  · rw [macros]
    have htail : tail.count 0 = 0 ↔ tail.length = 0 := by
      constructor
      · intro hnone
        by_contra hpos
        have hend := hzero (c.dynamicKeymapMacroEepromAddr + i + (bytes.length + 1)) tail.length
          (by omega) (Nat.pos_of_ne_zero hpos)
        have hsum : c.dynamicKeymapMacroEepromSize - i = (bytes.length + 1) + tail.length := by
          omega
        rw [hsum, Memory.load_add, ← List.singleton_append, ← List.append_assoc] at hload
        rw [(List.append_inj hload (by simp)).2] at hend
        exact List.count_eq_zero.mp hnone hend
      · intro hnil
        rw [List.eq_nil_of_length_eq_zero hnil, List.count_nil]
    omega

end Region

/-! ## Confinement -/

section Macros

variable {c t m fw} {id : UInt8} {lo hi : ℕ} {bytes : List UInt8}

/-- A confined round of the macro stays within. -/
theorem Located.within (h : Located c m id.toNat lo hi bytes) {r : Round}
    (hr : r.Confined c m id) :
    r.Within hi (c.dynamicKeymapMacroEepromAddr + c.dynamicKeymapMacroEepromSize) := by
  have hnul : m hi = 0 := by
    rw [h.hi_eq]
    exact h.spells.nul
  have hlt := h.hi_lt
  have hstart := (h.inside r.start hr.starts.1).mp hr.starts.2
  refine ⟨hstart.2, ?_, ?_, hr.table⟩
  · by_contra hend
    have hread := hr.reads
      (c.dynamicKeymapMacroEepromAddr + c.dynamicKeymapMacroEepromSize) (by omega) (by omega)
    exact Nat.lt_irrefl _ hread.2
  · intro hacts
    by_contra hend
    exact (hr.plays hacts hi hstart.2 (by omega)).2 hnul

/-- A round that starts in the macro and stays within is confined. -/
theorem Located.confined (h : Located c m id.toNat lo hi bytes) {r : Round} (hlo : lo ≤ r.start)
    (hr : r.Within hi (c.dynamicKeymapMacroEepromAddr + c.dynamicKeymapMacroEepromSize)) :
    r.Confined c m id := by
  have hlo_le := h.lo_le
  have hhi := h.hi_eq
  have hlt := h.hi_lt
  have hstarts := hr.starts
  have hreads := hr.reads
  have hregion : ∀ x, r.start ≤ x →
      x < c.dynamicKeymapMacroEepromAddr + c.dynamicKeymapMacroEepromSize → InRegion c x :=
    fun x hx hx' => ⟨by omega, hx'⟩
  have hbegin := hregion r.start (Nat.le_refl _) (by omega)
  refine ⟨⟨hbegin, (h.inside _ hbegin).mpr ⟨hlo, hstarts⟩⟩, ?_, ?_, hr.table⟩
  · exact fun x hx hx' => hregion x hx (by omega)
  · intro hacts x hx hx'
    have hend := hr.plays hacts
    refine ⟨(h.inside x (hregion x hx (by omega))).mpr (by omega), ?_⟩
    rcases Nat.exists_eq_add_of_le (Nat.le_trans hlo hx) with ⟨j, rfl⟩
    exact h.spells.text (by omega)

/-- The playback of a macro, in terms of its commands. -/
theorem Located.plays_iff (h : Located c m id.toNat lo hi bytes) {acts : List Act} :
    Plays t m hi (c.dynamicKeymapMacroEepromAddr + c.dynamicKeymapMacroEepromSize) lo acts ↔
      ∃ cmds, commands (id.toNat + 2 = (macros c m).length) bytes = some cmds ∧
        acts = cmds.flatMap (Command.acts t) := by
  apply Macro.plays_iff t m h.spells h.hi_eq h.hi_lt
  rw [decide_eq_true_iff]
  exact h.last

theorem playback_head {fuel p : ℕ} {rounds : List Round}
    (h : playback t m fuel p = some rounds) : ∃ r ∈ rounds, r.start = p := by
  cases fuel with
  | zero => exact absurd h nofun
  | succ fuel =>
    have hstart := playRound_start (t := t) (m := m) p
    rw [playback] at h
    rcases hround : playRound t m p with ⟨_ | _, r⟩
    · rw [hround] at h hstart
      rw [Option.some.injEq] at h
      rw [← h]
      exact ⟨r, List.mem_singleton_self r, hstart⟩
    · rw [hround] at h hstart
      rw [Option.map_eq_some_iff] at h
      rcases h with ⟨rest, -, rfl⟩
      exact ⟨r, List.mem_cons_self, hstart⟩

section Region

variable (hsize : 0 < c.dynamicKeymapMacroEepromSize)
  (hlast : m (c.dynamicKeymapMacroEepromAddr + c.dynamicKeymapMacroEepromSize - 1) = 0)
include hsize hlast

/-- A playback with confined rounds is that of a complete macro, and does what its commands
say. -/
theorem complete_of_rounds {fuel : ℕ} {play : Playback}
    (hsend : dynamicKeymapMacroSend t c m fuel id = some play)
    (hrounds : ∀ r ∈ play.rounds, r.Confined c m id) :
    Complete c m id ∧ ∀ acts, Does c t m id acts → play.acts = acts := by
  by_cases hid : c.dynamicKeymapMacroCount ≤ id.toNat
  · constructor
    · exact fun hlt => absurd hlt (Nat.not_lt.mpr hid)
    · exact fun acts hdoes => absurd hdoes.1 (Nat.not_lt.mpr hid)
  rw [dynamicKeymapMacroSend, if_neg hid] at hsend
  dsimp only at hsend
  rw [if_neg (not_not.mpr hlast)] at hsend
  rcases located hsize hlast id.toNat with ⟨-, hlength⟩ | ⟨hskip, hlength⟩ | ⟨lo, hi, bytes, h⟩
  · constructor
    · exact fun _ hlt => absurd hlt (Nat.not_lt.mpr hlength)
    · rintro acts ⟨-, bytes, cmds, hpiece, -⟩
      rw [List.getElem?_eq_none hlength] at hpiece
      exact absurd hpiece nofun
  · rw [hskip] at hsend
    dsimp only at hsend
    rw [Option.map_eq_some_iff] at hsend
    rcases hsend with ⟨rounds, hplay, rfl⟩
    rcases playback_head hplay with ⟨r, hr, hstart⟩
    have hin := (hrounds r hr).starts.1.2
    rw [hstart] at hin
    exact absurd hin (Nat.lt_irrefl _)
  · rw [h.skip] at hsend
    dsimp only at hsend
    rw [Option.map_eq_some_iff] at hsend
    rcases hsend with ⟨rounds, hplay, rfl⟩
    dsimp only at hrounds ⊢
    have hplays := plays_of_playback hplay fun r hr => h.within (hrounds r hr)
    rcases h.plays_iff.mp hplays with ⟨cmds, hcmds, hacts⟩
    constructor
    · intro _ _
      rw [h.piece, Option.getD_some, hcmds]
      exact ⟨h.count, rfl⟩
    · rintro acts ⟨-, bytes', cmds', hpiece, hcmds', rfl⟩
      rw [h.piece, Option.some.injEq] at hpiece
      rw [← hpiece, hcmds, Option.some.injEq] at hcmds'
      rw [← hcmds']
      exact hacts

/-- The playback of a complete macro ends, its rounds are confined, and it does nothing that its
commands do not say. -/
theorem Complete.rounds (hcomplete : Complete c m id) :
    ∃ fuel play, dynamicKeymapMacroSend t c m fuel id = some play ∧
      (∀ x ∈ play.skipped, InRegion c x) ∧ (∀ r ∈ play.rounds, r.Confined c m id) ∧
      (play.acts ≠ [] → Does c t m id play.acts) := by
  have hskipped : ∀ k ≤ c.dynamicKeymapMacroEepromSize,
      ∀ x ∈ (c.dynamicKeymapMacroEepromAddr + c.dynamicKeymapMacroEepromSize - 1) ::
        List.range' c.dynamicKeymapMacroEepromAddr k, InRegion c x := by
    intro k hk
    rw [List.forall_mem_cons]
    refine ⟨⟨by omega, by omega⟩, fun x hx => ?_⟩
    rw [List.mem_range'_1] at hx
    exact ⟨hx.1, by omega⟩
  by_cases hid : c.dynamicKeymapMacroCount ≤ id.toNat
  · refine ⟨0, ⟨[], []⟩, ?_, ?_, ?_, fun hsome => absurd rfl hsome⟩
    · rw [dynamicKeymapMacroSend, if_pos hid]
    · rintro _ ⟨⟩
    · rintro _ ⟨⟩
  have hsend : ∀ fuel, dynamicKeymapMacroSend t c m fuel id =
      (skipMacros m c.dynamicKeymapMacroEepromSize c.dynamicKeymapMacroEepromAddr
        id.toNat).elim
        (some ⟨(c.dynamicKeymapMacroEepromAddr + c.dynamicKeymapMacroEepromSize - 1) ::
          List.range' c.dynamicKeymapMacroEepromAddr c.dynamicKeymapMacroEepromSize, []⟩)
        fun p => (playback t m fuel p).map
          (⟨(c.dynamicKeymapMacroEepromAddr + c.dynamicKeymapMacroEepromSize - 1) ::
            List.range' c.dynamicKeymapMacroEepromAddr (p - c.dynamicKeymapMacroEepromAddr), ·⟩) := by
    intro fuel
    rw [dynamicKeymapMacroSend, if_neg hid]
    dsimp only
    refine (if_neg (not_not.mpr hlast)).trans ?_
    cases skipMacros m c.dynamicKeymapMacroEepromSize c.dynamicKeymapMacroEepromAddr id.toNat with
    | none => rfl
    | some p => rfl
  rw [Nat.not_le] at hid
  rcases located hsize hlast id.toNat with ⟨hskip, -⟩ | ⟨-, hlength⟩ | ⟨lo, hi, bytes, h⟩
  · rw [hskip] at hsend
    refine ⟨0, _, hsend 0, hskipped _ (Nat.le_refl _), ?_, fun hsome => absurd rfl hsome⟩
    rintro _ ⟨⟩
  · have hcount := (hcomplete hid (by omega)).1
    omega
  · rw [h.skip] at hsend
    have hsome := (hcomplete hid (Nat.lt_of_succ_lt h.count)).2
    rw [h.piece, Option.getD_some, Option.isSome_iff_exists] at hsome
    rcases hsome with ⟨cmds, hcmds⟩
    rcases (h.plays_iff.mpr ⟨cmds, hcmds, rfl⟩ :
        Plays t m _ _ lo (cmds.flatMap (Command.acts t))).playback with
      ⟨fuel, rounds, hplay, hrounds, hacts⟩
    have hfuel := hsend fuel
    rw [Option.elim_some, hplay] at hfuel
    refine ⟨fuel, _, hfuel, ?_, fun r hr => h.confined (hrounds r hr).2 (hrounds r hr).1, fun _ => ?_⟩
    · have hlt := h.hi_lt
      have hhi := h.hi_eq
      exact hskipped _ (by omega)
    · exact ⟨hid, bytes, cmds, h.piece, hcmds, hacts⟩

/-- A playback is confined if and only if the macro is complete, the keyboard returns, and the
macros started on the way are confined. -/
theorem confined_step (s : σ) :
    Confined c t m fw id s ↔ Complete c m id ∧ Returns c t m fw (id, s) ∧
      ∀ p, Calls c t m fw (id, s) p → Confined c t m fw p.1 p.2 := by
  constructor
  · intro h
    cases h with
    | intro _ _ _ play hsend _ hrounds hreturns hstarted =>
      rcases complete_of_rounds hsize hlast hsend hrounds with ⟨hcomplete, hdoes⟩
      refine ⟨hcomplete, ?_, ?_⟩
      · intro before a after hacts
        exact hreturns before a after (hdoes _ hacts)
      · rintro ⟨id', s'⟩ ⟨before, a, after, hacts, hexecs, hstarts⟩
        exact hstarted before a after (hdoes _ hacts) hexecs id' s' hstarts
  · rintro ⟨hcomplete, hreturns, hcalls⟩
    rcases hcomplete.rounds hsize hlast with ⟨fuel, play, hsend, hskipped, hrounds, hdoes⟩
    have hsplit : ∀ before a after, play.acts = before ++ a :: after →
        Does c t m id (before ++ a :: after) := by
      intro before a after hacts
      rw [← hacts]
      apply hdoes
      rw [hacts]
      exact List.append_ne_nil_of_right_ne_nil before (List.cons_ne_nil a after)
    apply Confined.intro id s fuel play hsend hskipped hrounds
    · intro before a after hacts
      exact hreturns before a after (hsplit before a after hacts)
    · intro before a after hacts hexecs id' s' hstarts
      exact hcalls (id', s') ⟨before, a, after, hsplit before a after hacts, hexecs, hstarts⟩

/-- The macros that are started one by the other come to an end. -/
theorem Confined.acc {s : σ} (h : Confined c t m fw id s) :
    Acc (fun p' p => Calls c t m fw p p') (id, s) := by
  induction h with
  | intro id s _ _ hsend _ hrounds _ _ ih =>
    constructor
    rintro ⟨id', s'⟩ ⟨before, a, after, hacts, hexecs, hstarts⟩
    have hdoes := (complete_of_rounds hsize hlast hsend hrounds).2 _ hacts
    exact ih before a after hdoes hexecs id' s' hstarts

/-- The playback of a macro ends and is confined if and only if it and every macro it leads to
is complete, the keyboard returns from what they do, and they do not start each other without
end. -/
theorem confined_iff (t : Tables) (fw : Firmware σ) (id : UInt8) (s : σ) :
    Confined c t m fw id s ↔
      (∀ p, Relation.ReflTransGen (Calls c t m fw) (id, s) p →
        Complete c m p.1 ∧ Returns c t m fw p) ∧
      ¬ ∃ chain : ℕ → UInt8 × σ, chain 0 = (id, s) ∧
        ∀ n, Calls c t m fw (chain n) (chain (n + 1)) := by
  rw [← not_acc_iff_exists_descending_chain (r := fun p' p => Calls c t m fw p p'), not_not]
  constructor
  · intro h
    refine ⟨fun p hreach => ?_, h.acc hsize hlast⟩
    have hconfined : Confined c t m fw p.1 p.2 := by
      induction hreach with
      | refl => exact h
      | tail _ hcalls ih => exact ((confined_step hsize hlast _).mp ih).2.2 _ hcalls
    rcases (confined_step hsize hlast _).mp hconfined with ⟨hcomplete, hreturns, -⟩
    exact ⟨hcomplete, hreturns⟩
  · rintro ⟨hreach, hacc⟩
    -- by induction along the macros that are started
    have hall : ∀ p, Acc (fun p' p => Calls c t m fw p p') p →
        Relation.ReflTransGen (Calls c t m fw) (id, s) p → Confined c t m fw p.1 p.2 := by
      intro p hacc
      induction hacc with
      | intro p _ ih =>
        intro hp
        rcases hreach p hp with ⟨hcomplete, hreturns⟩
        apply (confined_step hsize hlast p.2).mpr
        exact ⟨hcomplete, hreturns, fun p' hcalls => ih p' hcalls (hp.tail hcalls)⟩
    exact hall (id, s) hacc .refl

end Region

end Macros

/-- A keyboard on which the keycodes come to {lit}`process_record_via` at once. -/
def viaOnly : Firmware Unit where
  starts _ _ a id _ :=
    match a with
    | .vialKeycodeTap keycode | .vialKeycodeDown keycode =>
      processRecordVia keycode true = some id
    | .vialKeycodeUp keycode => processRecordVia keycode false = some id
    | _ => False
  returns _ _ _ := True

/-- The first macro taps the keycode of the second one, a {lit}`b`. -/
def tappedMacro : Memory UInt8 :=
  Memory.store (fun _ => 0) 21 [1, 5, 1, 0x77, 0, 98]

/-- The playback of the first macro starts the second one, which starts none. -/
theorem confined_iff_tappedMacro :
    Confined Vial.smallKeyboard defaultTables tappedMacro viaOnly 0 () := by
  have hdoes : ∀ (id : UInt8) (bytes : List UInt8) (cmds : List Command) (acts : List Act),
      (macros Vial.smallKeyboard tappedMacro)[id.toNat]? = some bytes →
        (∀ last, commands last bytes = some cmds) →
          Does Vial.smallKeyboard defaultTables tappedMacro id acts →
            acts = cmds.flatMap (Command.acts defaultTables) := by
    rintro id bytes cmds acts hbytes hcmds ⟨-, bytes', cmds', hbytes', hcmds', rfl⟩
    rw [hbytes, Option.some.injEq] at hbytes'
    rw [← hbytes', hcmds, Option.some.injEq] at hcmds'
    rw [hcmds']
  have hfirst : ∀ p, Calls Vial.smallKeyboard defaultTables tappedMacro viaOnly (0, ()) p →
      p = (1, ()) := by
    rintro ⟨id, s⟩ ⟨before, a, after, hacts, -, hstarts⟩
    have hmem : a ∈ [Act.vialKeycodeTap 0x7701] := by
      rw [show [Act.vialKeycodeTap 0x7701] = before ++ a :: after from
        (hdoes 0 [1, 5, 1, 0x77] [.ext 5 0x7701] _ (by decide) (by decide) hacts).symm]
      exact List.mem_append_right before List.mem_cons_self
    rw [List.mem_singleton] at hmem
    subst hmem
    have hid : (1 : UInt8) = id := Option.some.inj hstarts
    rw [← hid]
  have hsecond : ∀ p, ¬ Calls Vial.smallKeyboard defaultTables tappedMacro viaOnly (1, ()) p := by
    rintro p ⟨before, a, after, hacts, hexecs, -⟩
    have hnone : ∀ a ∈ sendCharWithDelay defaultTables 98 0, a.execs = false := by decide
    rw [hnone a] at hexecs
    · exact absurd hexecs Bool.false_ne_true
    · rw [show sendCharWithDelay defaultTables 98 0 = before ++ a :: after from
        (hdoes 1 [98] [.char 98] _ (by decide) (by decide) hacts).symm]
      exact List.mem_append_right before List.mem_cons_self
  apply (confined_iff (by decide) (by decide) defaultTables viaOnly 0 ()).mpr
  constructor
  · intro p hreach
    refine ⟨?_, fun _ _ _ _ _ => trivial⟩
    rcases hreach.cases_head with rfl | ⟨next, hnext, hreach⟩
    · exact fun _ _ => by decide
    · rw [hfirst next hnext] at hreach
      rcases hreach.cases_head with rfl | ⟨last, hlast, -⟩
      · exact fun _ _ => by decide
      · exact absurd hlast (hsecond last)
  · rintro ⟨chain, hzero, hchain⟩
    have hone := hchain 0
    rw [hzero] at hone
    have htwo := hchain 1
    rw [hfirst _ hone] at htwo
    exact hsecond _ htwo

/-- The tap of the first macro lacks its keycode. -/
def unfinishedTap : Memory UInt8 :=
  Memory.store (fun _ => 0) 21 [1, 1, 0, 98]

/-- The playback of the first macro takes its NUL for the keycode, and plays the second. -/
theorem not_confined_unfinishedTap :
    unfinishedTap (21 + 107 - 1) = 0 ∧
      ¬ Confined Vial.smallKeyboard defaultTables unfinishedTap viaOnly 0 () ∧
      ∃ play, dynamicKeymapMacroSend defaultTables Vial.smallKeyboard unfinishedTap 3 0 = some play ∧
        ∃ r ∈ play.rounds, r.acts ≠ [] ∧ macroIndex Vial.smallKeyboard unfinishedTap r.start = 1 := by
  refine ⟨by decide, fun h => ?_, ?_⟩
  · have hcomplete := ((confined_step (by decide) (by decide) ()).mp h).1
    exact absurd (hcomplete (by decide) (by decide)).2 (by decide)
  · refine ⟨_, rfl, _, List.mem_cons_of_mem _ List.mem_cons_self, ?_, ?_⟩
    · decide
    · decide

end Macro
end VialQmk
