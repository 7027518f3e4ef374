import VialQmk.ExternalEeprom.I2c
import VialQmk.Library.Runs

/-!
# External EEPROM - the driver and a flat array

A block that goes on in another bank is sent with the device address of its first byte, a page of
256 bytes is copied by a counter of eight bits that never reaches its end, and the length of a
read is cut to sixteen bits, or is one less than nothing.  Without these the chip behaves as an
array of bytes.

Main results:

- Definition {lit}`Call.Fits`: the calls that have none of this.
- Theorem {lit}`flatArray`: the driver returns from them, and reads and writes as on an array.
-/

namespace VialQmk
namespace ExternalEeprom

/-- A call of the driver. -/
inductive Call
  | write (addr : ℕ) (buf : List UInt8)
  | read (addr len : ℕ)
  | erase

namespace Call

/-- The device after a call, if its loops end within a number of rounds. -/
def run (c : Config) (fuel : ℕ) (d : Device) : Call → Option Device
  | write addr buf => eepromWriteBlock c fuel buf addr d
  | read addr len => some (eepromReadBlock c (fun _ => 0) addr len d).2
  | erase => eepromDriverErase c fuel d

/-- The call on an array. -/
def apply (array : Memory UInt8) : Call → Memory UInt8
  | write addr buf => array.store addr buf
  | read _ _ => array
  | erase => fun _ => 0

/-- The block is inside the chip. -/
def InRange (c : Config) : Call → Prop
  | write addr buf => addr < c.byteCount ∧ addr + buf.length ≤ c.byteCount
  | read addr len => addr < c.byteCount ∧ addr + len ≤ c.byteCount
  | erase => True

/-- A block that is written is in one bank and has no piece of 256 bytes, and the length of one
that is read has sixteen bits and is not 0: {lit}`i2c_receive` takes one from it. -/
def Fits (c : Config) : Call → Prop
  | write addr buf => ShortPieces c addr buf.length ∧
    ∀ i < buf.length, (addr + i) / 256 ^ c.addressSize = addr / 256 ^ c.addressSize
  | read _ len => 0 < len ∧ len < 65536
  | erase => 0 < c.byteCount → c.pageSize < 256

end Call

/-- Rounds enough for every loop that ends. -/
def Config.rounds (c : Config) : ℕ :=
  255 + c.byteCount

/-- A call on the device and on the array. -/
def step (c : Config) (x : Device × Memory UInt8) (call : Call) : Device × Memory UInt8 :=
  ((call.run c c.rounds x.1).getD x.1, call.apply x.2)

/-- The call returns, the device has the bytes of the array, and a read gives them. -/
structure Behaves (c : Config) (x : Device × Memory UInt8) (call : Call) : Prop where
  returns : ∀ fuel ≥ c.rounds, ∃ d, call.run c fuel x.1 = some d ∧
    d.memory.load 0 c.byteCount = (step c x call).1.memory.load 0 c.byteCount
  array : ∀ i < c.byteCount, (step c x call).1.memory i = (step c x call).2 i
  read : ∀ addr len, call = .read addr len → ∀ buf,
    (eepromReadBlock c buf addr len x.1).1.load 0 len = x.2.load addr len

variable {c : Config}

/-- What a call does to the bytes of the chip. -/
theorem Call.run_eq (call : Call) (d : Device) (hrange : call.InRange c) (hfits : call.Fits c)
    {fuel : ℕ} (hfuel : c.rounds ≤ fuel) {array : Memory UInt8}
    (harray : ∀ i < c.byteCount, d.memory i = array i) :
    ∃ d', call.run c fuel d = some d' ∧
      ∀ i < c.byteCount, d'.memory i = call.apply array i := by
  have hrounds : 255 + c.byteCount ≤ fuel := hfuel
  cases call with
  | write addr buf =>
    have hlen := hrange.2
    rcases eepromWriteBlock_eq d (show 255 ≤ fuel by omega) (by omega) hrange.1 hfits.1
      hfits.2 with ⟨d', hd', hmemory⟩
    refine ⟨d', hd', ?_⟩
    intro i hi
    rw [hmemory]
    exact Memory.store_congr (harray i hi)
  | read addr len =>
    refine ⟨_, rfl, ?_⟩
    intro i hi
    rw [(eepromReadBlock_eq _ d hrange.1 hfits.2).2]
    exact harray i hi
  | erase =>
    by_cases hempty : 0 < c.byteCount
    · rcases eraseLoop_eq (n := fuel) 0 d (hfits hempty) (show 255 ≤ fuel by omega)
        (by omega) with
        ⟨d', hd', -, hzero⟩
      exact ⟨d', hd', fun i hi => hzero i (by omega) hi⟩
    · refine ⟨d, ?_, fun i hi => by omega⟩
      cases fuel with
      | zero => exact if_neg hempty
      | succ fuel => exact if_neg hempty

/-- A call from a device that has the bytes of the array. -/
theorem behaves_step (x : Device × Memory UInt8) (call : Call) (hrange : call.InRange c)
    (hfits : call.Fits c) (harray : ∀ i < c.byteCount, x.1.memory i = x.2 i) :
    Behaves c x call := by
  rcases call.run_eq x.1 hrange hfits (Nat.le_refl _) harray with ⟨d', hd', hmemory⟩
  have hstep : (step c x call).1 = d' := by
    rw [step, hd', Option.getD_some]
  refine ⟨?_, ?_, ?_⟩
  · intro fuel hfuel
    rcases call.run_eq x.1 hrange hfits hfuel harray with ⟨d, hd, hmemory'⟩
    refine ⟨d, hd, ?_⟩
    rw [hstep]
    apply Memory.load_congr
    intro i _ hi
    rw [hmemory i (by omega), hmemory' i (by omega)]
  · intro i hi
    rw [hstep]
    exact hmemory i hi
  · rintro addr len rfl buf
    have hlen := hrange.2
    rw [(eepromReadBlock_eq buf x.1 hrange.1 hfits.2).1]
    have hload := Memory.load_store_same buf 0 (x.1.memory.load addr len)
    rw [Memory.load_length] at hload
    rw [hload]
    apply Memory.load_congr
    intro i _ hi
    exact harray i (by omega)

/-- Along every sequence of calls in range that fit, the driver returns and behaves as an array
of bytes. -/
theorem flatArray (c : Config) (memory : Memory UInt8) (pointer : ℕ) (calls : List Call)
    (hrange : ∀ call ∈ calls, call.InRange c) (hfits : ∀ call ∈ calls, call.Fits c) :
    StateMachine.Along (step c) (Behaves c) (⟨memory, pointer⟩, memory) calls := by
  refine StateMachine.along_of_invariant (P := fun _ call => call.InRange c ∧ call.Fits c)
    (fun x => ∀ i < c.byteCount, x.1.memory i = x.2 i) ?_ ?_ (fun _ _ => rfl)
    (StateMachine.along_of_forall fun call hcall _ => ⟨hrange call hcall, hfits call hcall⟩)
  · intro x call h hcall
    exact (behaves_step x call hcall.1 hcall.2 h).array
  · intro x call h hcall
    exact behaves_step x call hcall.1 hcall.2 h

/-- Two banks of 256 bytes, with the bank in the address of the device. -/
def twoBanks : Config where
  byteCount := 512
  pageSize := 16
  addressSize := 1
  i2cAddress location := (0b10100000 : UInt8) ||| (UInt8.ofNat ((location >>> 8) &&& 0x07) <<< 1)
  bank address := (address >>> 1).toNat % 8
  pageSize_pow := ⟨4, by decide, rfl⟩
  addressSize_eq := .inl rfl
  embeds := by
    intro location hlocation
    have hbank : location >>> 8 = location / 256 := Nat.shiftRight_eq_div_pow _ 8
    obtain hzero | hone : location / 256 = 0 ∨ location / 256 = 1 := by omega
    · rw [hbank, Nat.pow_one, hzero]
      decide
    · rw [hbank, Nat.pow_one, hone]
      decide

/-- A block is written in the second bank and read back. -/
theorem flatArray_twoBanks :
    StateMachine.Along (step twoBanks) (Behaves twoBanks) (⟨fun _ => 0xFF, 0⟩, fun _ => 0xFF)
      [.write 0x10E [1, 2, 3], .read 0x10D 4, .erase] := by
  have hfits : (Call.write 0x10E [1, 2, 3]).Fits twoBanks :=
    ⟨fun _ _ _ => by decide, by decide⟩
  have hread : (Call.read 0x10D 4).Fits twoBanks :=
    ⟨Nat.succ_pos 3, by decide⟩
  have herase : Call.erase.Fits twoBanks := fun _ => by decide
  exact flatArray twoBanks _ 0 _ (by simp [Call.InRange, twoBanks])
    (by simp [hfits, hread, herase])

/-- The second byte of a block goes to the bank of the first one. -/
theorem not_flatArray_twoBanks :
    ¬StateMachine.Along (step twoBanks) (Behaves twoBanks) (⟨fun _ => 0, 0⟩, fun _ => 0)
      [.write 0xFF [1, 2]] := by
  rintro ⟨h, -⟩
  exact absurd (h.array 0x100 (by decide)) (by decide +kernel)

end ExternalEeprom
end VialQmk
