import VialQmk.LegacyEeprom.Persistence

/-!
# Legacy EEPROM - power loss between compactions

Power may fail after any number of the half words that a call programs.  The first half word of
an entry of two is skipped by the boot together with the one behind it, and the log goes on after
both of them.

Main results:

- Definition {lit}`Event`: calls, calls that are cut by a power loss, and boots.
- Theorem {lit}`powerLoss_safe`: after a power loss every byte that the call writes has its old
  value or its new one, and the others have their old value.
-/

namespace VialQmk
namespace LegacyEeprom

/-- What happens to the driver. -/
inductive Event
  | call (call : Call)
  /-- Power fails after some of the programs of a call. -/
  | cut (call : Call) (programs : ℕ)
  | boot

/-- The state of the driver after a boot. -/
def State.boot (c : Config) (flash : Flash) : State :=
  State.eepromInit c ⟨flash, fun _ => 0, 0, []⟩

namespace Event

/-- The state after an event. -/
def step (c : Config) (s : State) : Event → State
  | call k => k.run c { s with issued := [] }
  | cut k programs => State.boot c
    (StateMachine.run (FlashOperation.apply c) s.flash
      ((k.run c { s with issued := [] }).issued.take programs))
  | boot => State.boot c s.flash

end Event

/-- A call that erases the flash. -/
def Call.Compacts (c : Config) (s : State) (call : Call) : Prop :=
  ∃ op ∈ (call.run c { s with issued := [] }).issued, ¬op.IsProgram

/-- An address that a call writes. -/
def Call.Names (address : ℕ) : Call → Prop
  | byte address' _ => address = address'.toNat
  | word address' _ => address = address'.toNat ∨ address = address'.toNat + 1

/-- What an event leaves in the memory. -/
def Safe (c : Config) (s : State) : Event → Prop
  | .call k => ∀ address : HalfWord, address.toNat < c.densityBytes →
    ((Event.call k).step c s).readDataByte c address = k.write c s.dataBuf address.toNat
  | .cut k programs => ¬k.Compacts c s → ∀ address : HalfWord, address.toNat < c.densityBytes →
    (((Event.cut k programs).step c s).readDataByte c address = s.readDataByte c address ∨
      k.Names address.toNat ∧ ((Event.cut k programs).step c s).readDataByte c address =
        k.write c s.dataBuf address.toNat)
  | .boot => ∀ address : HalfWord, address.toNat < c.densityBytes →
    (Event.boot.step c s).readDataByte c address = s.readDataByte c address

/-- The calls are clean, also those in which power fails behind the first program, and power fails
only in those that do not compact the log. -/
def Event.Clean (c : Config) (s : State) : Event → Prop
  | .call k => k.Clean c s
  | .cut k programs => (programs = 0 ∨ k.Clean c s) ∧ ¬k.Compacts c s
  | .boot => True

variable {c : Config} {s s' : State} {contents new : DataBuf}

theorem InSync.congr (h : InSync c s contents)
    (heq : ∀ address < c.densityBytes, new address = contents address) : InSync c s new := by
  rcases h with ⟨es, hes, hslot, hdata⟩
  refine ⟨es, hes.congr heq, hslot, ?_⟩
  intro address haddress
  rw [hdata address haddress, heq address haddress]

/-- The contents are those of the memory. -/
theorem InSync.self (h : InSync c s contents) : InSync c s s.dataBuf :=
  h.congr (by rcases h with ⟨-, -, -, hdata⟩; exact hdata)

/-- A boot reads the contents of the flash. -/
theorem Holds.boot {flash : Flash} {es : List Entry} (h : Holds c flash es contents)
    (hmax : c.writeLogBase ≤ 0x2000) : InSync c (State.boot c flash) contents := by
  have hinit := h.eepromInit hmax ⟨flash, fun _ => 0, 0, []⟩ rfl
  exact ⟨es, h, hinit.2, hinit.1⟩

/-- A byte that a call does not name keeps its value. -/
theorem Call.write_of_not_names {address : ℕ} {call : Call} (h : ¬call.Names address) :
    call.write c contents address = contents address := by
  have hbyte : ∀ (contents : DataBuf) (address' : ℕ) (value : Byte), address ≠ address' →
      writeByte c contents address' value address = contents address := by
    intro contents address' value hne
    unfold writeByte
    split_ifs
    · exact Function.update_of_ne hne _ _
    · rfl
  cases call with
  | byte address' dataByte => exact hbyte _ _ _ h
  | word address' dataWord =>
    rw [Call.Names, not_or] at h
    rw [Call.write, hbyte _ _ _ h.2, hbyte _ _ _ h.1]

/-- A power loss in a call that does not compact the log. -/
theorem cut_inSync (h : InSync c s s.dataBuf) (hmax : c.writeLogBase ≤ 0x2000) (call : Call)
    {programs : ℕ} (hclean : programs = 0 ∨ call.Clean c s) (hcompacts : ¬call.Compacts c s) :
    ∃ contents, InSync c ((Event.cut call programs).step c s) contents ∧
      ∀ address < c.densityBytes, contents address = s.dataBuf address ∨
        contents address = call.write c s.dataBuf address := by
  rcases hclean with rfl | hclean
  · rcases h with ⟨es, hes, -, -⟩
    exact ⟨s.dataBuf, hes.boot hmax, fun _ _ => Or.inl rfl⟩
  rcases Call.run_writes (s := { s with issued := [] }) h hmax call hclean with
    ⟨ops, heffect, -⟩
  have hissued := heffect.issued
  rw [List.nil_append] at hissued
  have hprograms : ∀ op ∈ ops, op.IsProgram := by
    intro op hop
    by_contra hno
    exact hcompacts ⟨op, by rwa [hissued], hno⟩
  rcases heffect.cut hprograms programs with ⟨es, contents, hes, hor⟩
  refine ⟨contents, ?_, hor⟩
  simp only [Event.step]
  rw [hissued]
  exact hes.boot hmax

/-- An event from a state where memory and flash agree. -/
theorem safe_step (hmax : c.writeLogBase ≤ 0x2000) (s : State) (e : Event)
    (h : InSync c s s.dataBuf) (hclean : e.Clean c s) :
    Safe c s e ∧ InSync c (e.step c s) (e.step c s).dataBuf := by
  cases e with
  | call k =>
    have hsync := (Call.run_writes (s := { s with issued := [] }) h hmax k hclean).inSync
    refine ⟨?_, hsync.self⟩
    intro address haddress
    rcases hsync with ⟨-, -, -, hdata⟩
    rw [State.readDataByte, if_pos haddress]
    exact hdata _ haddress
  | cut k programs =>
    rcases cut_inSync h hmax k hclean.1 hclean.2 with ⟨contents, hsync, hor⟩
    refine ⟨?_, hsync.self⟩
    intro _ address haddress
    rcases hsync with ⟨-, -, -, hdata⟩
    rw [State.readDataByte, if_pos haddress, State.readDataByte, if_pos haddress,
      hdata _ haddress]
    by_cases hnames : k.Names address.toNat
    · exact (hor _ haddress).imp_right fun heq => ⟨hnames, heq⟩
    · left
      rcases hor _ haddress with heq | heq
      · exact heq
      · rw [heq, Call.write_of_not_names hnames]
  | boot =>
    rcases h with ⟨es, hes, -, -⟩
    have hsync := hes.boot hmax
    refine ⟨?_, hsync.self⟩
    intro address haddress
    rcases hsync with ⟨-, -, -, hdata⟩
    rw [State.readDataByte, if_pos haddress, State.readDataByte, if_pos haddress]
    exact hdata _ haddress

/-- Along every run of clean calls, of power losses between compactions and of boots, a call that
is cut leaves every byte that it writes old or new and the others old, and the calls after it
write and the boots after it read as from that state. -/
theorem powerLoss_safe (c : Config) (hmax : c.densityBytes ≤ feeAddressMaxSize)
    (events : List Event)
    (hclean : StateMachine.Along (Event.step c) (Event.Clean c) (State.start c) events) :
    StateMachine.Along (Event.step c) (Safe c) (State.start c) events := by
  have hbase : c.writeLogBase ≤ 0x2000 := by
    rw [feeAddressMaxSize] at hmax
    rw [Config.writeLogBase]
    omega
  refine StateMachine.along_of_invariant (fun s => InSync c s s.dataBuf) ?_ ?_
    (inSync_start hbase).self hclean
  · intro s e h hc
    exact (safe_step hbase s e h hc).2
  · intro s e h hc
    exact (safe_step hbase s e h hc).1

instance : (op : FlashOperation) → Decidable op.IsProgram
  | .erasePage _ => isFalse id
  | .programHalfWord _ _ => isTrue trivial

instance (c : Config) (s : State) (call : Call) : Decidable (call.Compacts c s) :=
  inferInstanceAs (Decidable (∃ op ∈ _, ¬FlashOperation.IsProgram op))

instance (c : Config) (s : State) : (e : Event) → Decidable (e.Clean c s)
  | .call k => inferInstanceAs (Decidable (k.Clean c s))
  | .cut _ _ => inferInstanceAs (Decidable ((_ ∨ _) ∧ ¬Call.Compacts _ _ _))
  | .boot => inferInstanceAs (Decidable True)

/-- A word is written, and power fails in the second write of it. -/
theorem powerLoss_safe_small : StateMachine.Along (Event.step smallConfig) (Safe smallConfig)
    (State.start smallConfig) [.call (.word 0 0x0101), .cut (.word 0 0x0301) 1, .boot] :=
  powerLoss_safe smallConfig (by decide) _ (by decide)

/-- A byte keeps its value in the memory only, and is lost with the power in the write of
another one. -/
theorem not_powerLoss_safe_small :
    ¬StateMachine.Along (Event.step smallConfig) (Safe smallConfig) (State.start smallConfig)
      [.call (.word 0 0x0101), .call (.byte 0 2), .call (.word 0 0), .call (.word 0 0x0303),
        .cut (.byte 2 5) 0] := by
  rintro ⟨-, -, -, -, h, -⟩
  rcases h (by decide) 1 (by decide) with h | ⟨h, -⟩
  · exact absurd h (by decide)
  · have hnames : (1 : HalfWord).toNat = (2 : HalfWord).toNat := h
    exact absurd hnames (by decide)

end LegacyEeprom
end VialQmk
