import VialQmk.Vial.Firewall

/-!
# Vial - the macros of a locked keyboard

The macro region of the EEPROM stands behind everything the indexed commands write.
The command that sets the macro buffer looks at the lock; the commands that reset the
macros do not.

Main results:

- Theorem {lit}`step_macroRegion`: a report to a locked keyboard leaves the macros as
  they are, unless it resets them.
- Theorem {lit}`run_macroRegion`: the macros are the same at the end of a run that stays
  locked if and only if no report resets them or there were none.
-/

namespace VialQmk
namespace Vial

variable {L : Type} {c : Config L}

/-- The bytes of the macro region. -/
def macroRegion (c : Config L) (eeprom : Memory UInt8) : List UInt8 :=
  eeprom.load c.dynamicKeymapMacroEepromAddr c.dynamicKeymapMacroEepromSize

/-- A macro region without macros. -/
def noMacros (c : Config L) : List UInt8 :=
  List.replicate c.dynamicKeymapMacroEepromSize 0

/-- The report is a command that resets the macros. -/
def ResetsMacros (c : Config L) (s : State L) (i : Input) : Prop :=
  ¬ Blocked s i ∧ (ViaCommandId.ofByte (i.report 0) = some .dynamicKeymapMacroReset ∨
    ViaCommandId.ofByte (i.report 0) = some .eepromReset ∧ c.viaEepromAllowReset = true)

/-! ## Effects on the macros -/

/-- A write in front of the macros. -/
theorem macroRegion_of_frame {m m' : Memory UInt8} {a b : ℕ} (h : Memory.Frame a b m m')
    (hb : b ≤ c.dynamicKeymapMacroEepromAddr) : macroRegion c m' = macroRegion c m :=
  h.load (Or.inr hb)

/-- A reset of the macros leaves none. -/
theorem macroRegion_macroReset (m : Memory UInt8) :
    macroRegion c (dynamicKeymapMacroReset c m) = noMacros c :=
  Memory.load_fill _ _ _ _

theorem macroRegion_dynamicKeymapReset (s : State L) :
    macroRegion c (dynamicKeymapReset c s).eeprom = macroRegion c s.eeprom := by
  rcases KeycodeCell.areas_le c with ⟨hcore, hkeys, hencoders, hsettings, htaps, hcombos,
    hoverrides⟩
  have hmacros := c.keyOverrideEnd_le
  apply Memory.load_congr
  intro x hx _
  exact dynamicKeymapReset_frame s (by omega) (Or.inr hx)

/-- A reset of the EEPROM ends with a reset of the macros. -/
theorem macroRegion_eeconfigInitVia (s : State L) :
    macroRegion c (eeconfigInitVia c s).eeprom = noMacros c := by
  rcases KeycodeCell.areas_le c with ⟨hcore, hkeys, hencoders, hsettings, htaps, hcombos,
    hoverrides⟩
  have hmacros := c.keyOverrideEnd_le
  have hconfig := c.configEnd_le
  simp only [eeconfigInitVia, State.mapEeprom]
  rw [macroRegion_of_frame (frame_setValid c true _) (by omega)]
  exact macroRegion_macroReset _

/-- An effect on a locked keyboard leaves the macros as they are, unless it is that of a
reset. -/
theorem macroRegion_of_effect {s : State L} {i : Input} (hlocked : Locked s i)
    (hopen : ¬ Blocked s i) {m : Memory UInt8} (h : Effect c s (buffer s i.report) m) :
    macroRegion c m = macroRegion c s.eeprom ∨ ResetsMacros c s i := by
  rcases KeycodeCell.areas_le c with ⟨hcore, hkeys, hencoders, hsettings, htaps, hcombos,
    hoverrides⟩
  have hmacros := c.keyOverrideEnd_le
  cases h with
  | same => exact Or.inl rfl
  | config hframe => exact Or.inl (macroRegion_of_frame hframe (by omega))
  | settings hframe =>
    left
    apply Memory.load_congr
    intro x hx _
    exact hframe x (by omega) (by omega)
  | keycode hid =>
    exact Or.inl (macroRegion_of_frame (frame_setKeycode c _ _ _ _ _) (by omega))
  | encoder =>
    exact Or.inl (macroRegion_of_frame (frame_setEncoder c _ _ _ _ _) (by omega))
  | buffer offset size p =>
    exact Or.inl (macroRegion_of_frame (frame_setBuffer c _ _ _ _ _ _) (by omega))
  | tapDance =>
    have hend : c.vialTapDanceEepromAddr + 10 * c.vialTapDanceEntries ≤
        c.dynamicKeymapMacroEepromAddr := by
      simp only [Options.vialComboEepromAddr] at hcombos
      omega
    exact Or.inl (macroRegion_of_frame (entrySet_frame _ _ _ _ s) hend)
  | combo =>
    have hend : c.vialComboEepromAddr + 10 * c.vialComboEntries ≤
        c.dynamicKeymapMacroEepromAddr := by
      simp only [Options.vialKeyOverrideEepromAddr] at hoverrides
      omega
    exact Or.inl (macroRegion_of_frame (entrySet_frame _ _ _ _ s) hend)
  | keyOverride => exact Or.inl (macroRegion_of_frame (entrySet_frame _ _ _ _ s) hmacros)
  | macros hunlocked => exact absurd (hlocked.symm.trans hunlocked) Bool.false_ne_true
  | reset hid => exact Or.inl (macroRegion_dynamicKeymapReset s)
  | eepromReset hid hallow => exact Or.inr ⟨hopen, Or.inr ⟨hid, hallow⟩⟩
  | macroReset hid => exact Or.inr ⟨hopen, Or.inl hid⟩

/-! ## Reports -/

/-- The reset commands do not look at the lock. -/
theorem macroRegion_resetsMacros {s : State L} {i : Input} (h : ResetsMacros c s i) :
    macroRegion c (step c s i).eeprom = noMacros c := by
  rcases h with ⟨hopen, hid | ⟨hid, hallow⟩⟩
  · rw [step_eeprom, receive_open hopen, rawHidCommand]
    rw [show ViaCommandId.ofByte (buffer s i.report 0) = some .dynamicKeymapMacroReset from hid]
    exact macroRegion_macroReset _
  · rw [step_eeprom, receive_open hopen, rawHidCommand]
    rw [show ViaCommandId.ofByte (buffer s i.report 0) = some .eepromReset from hid]
    simp only [hallow, if_true]
    exact macroRegion_eeconfigInitVia _

/-- A report to a locked keyboard leaves the macros as they are, unless it resets them. -/
theorem step_macroRegion {s : State L} {i : Input} (hlocked : Locked s i)
    (h : ¬ ResetsMacros c s i) :
    macroRegion c (step c s i).eeprom = macroRegion c s.eeprom := by
  rcases step_effect (c := c) s i with ⟨-, hsame⟩ | ⟨hopen, heffect⟩
  · rw [hsame]
  · rcases macroRegion_of_effect hlocked hopen heffect with hsame | hreset
    · exact hsame
    · exact absurd hreset h

/-- A locked keyboard without macros stays without. -/
theorem run_noMacros {s : State L} {is : List Input}
    (hlocked : StateMachine.Along (step c) Locked s is)
    (h : macroRegion c s.eeprom = noMacros c) :
    macroRegion c (StateMachine.run (step c) s is).eeprom = noMacros c := by
  apply StateMachine.run_invariant (fun s => macroRegion c s.eeprom = noMacros c) _ h hlocked
  intro s i hnone hlocked
  by_cases hreset : ResetsMacros c s i
  · exact macroRegion_resetsMacros hreset
  · exact (step_macroRegion hlocked hreset).trans hnone

/-- Along a run that stays locked the macros are kept if and only if no report resets
them, or there were none. -/
theorem run_macroRegion {s : State L} {is : List Input}
    (hlocked : StateMachine.Along (step c) Locked s is) :
    macroRegion c (StateMachine.run (step c) s is).eeprom = macroRegion c s.eeprom ↔
      StateMachine.Along (step c) (fun s i => ¬ ResetsMacros c s i) s is ∨
        macroRegion c s.eeprom = noMacros c := by
  induction is generalizing s with
  | nil => exact iff_of_true rfl (Or.inl trivial)
  | cons i is ih =>
    by_cases hreset : ResetsMacros c s i
    · have hnone := macroRegion_resetsMacros hreset
      rw [StateMachine.run_cons, run_noMacros hlocked.2 hnone]
      constructor
      · exact fun h => Or.inr h.symm
      · rintro (h | h)
        · exact absurd hreset h.1
        · exact h.symm
    · have hsame := step_macroRegion hlocked.1 hreset
      have hrest := ih hlocked.2
      rw [hsame] at hrest
      rw [StateMachine.run_cons, hrest]
      exact or_congr_left (and_iff_right hreset).symm

/-- The small keyboard with a macro, after a report that asks for the number of macros
and one that sets a macro buffer. -/
theorem run_macroRegion_smallKeyboard :
    macroRegion smallKeyboard (StateMachine.run (step smallKeyboard) smallState
        [inputOf [0x0C], inputOf [0x0F, 0, 0, 1, 5]]).eeprom =
      macroRegion smallKeyboard smallState.eeprom := by
  have hlocked : StateMachine.Along (step smallKeyboard) Locked smallState
      [inputOf [0x0C], inputOf [0x0F, 0, 0, 1, 5]] := ⟨rfl, rfl, trivial⟩
  apply (run_macroRegion hlocked).mpr
  left
  refine ⟨?_, ?_, trivial⟩
  · rintro ⟨-, hid | ⟨-, hallow⟩⟩
    · exact absurd hid (by decide)
    · exact absurd hallow (by decide)
  · rintro ⟨-, hid | ⟨-, hallow⟩⟩
    · exact absurd hid (by decide)
    · exact absurd hallow (by decide)

/-- The macros of the small keyboard are gone after one report, while it is locked. -/
theorem macros_lost_macroReset :
    StateMachine.Along (step smallKeyboard) Locked smallState [inputOf [0x10]] ∧
      macroRegion smallKeyboard
          (StateMachine.run (step smallKeyboard) smallState [inputOf [0x10]]).eeprom ≠
        macroRegion smallKeyboard smallState.eeprom := by
  constructor
  · exact ⟨rfl, trivial⟩
  · intro h
    have hfirst := congrArg List.head? h
    exact absurd hfirst (by decide)

end Vial
end VialQmk
