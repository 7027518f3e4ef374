import VialQmk.Library.Runs
import VialQmk.Steno.ProcessSteno

/-!
# Stenography keys - chords are complete

The keys that are held and the keys that were pressed since the last packet are kept beside the
state.  Each byte of the chord is the union of the bits of these keys; the counter is the number
of the keys that are held, a key of the combined map counted as its two.

Main results:

- Definition {lit}`IsPacket`: the bytes that stand for some keys.
- Theorem {lit}`Holds.event`: what one event does to the chord and to the counter.
- Theorem {lit}`chords_complete`: when the last key is released, exactly the keys of the chord
  are sent, if no key of the combined map is used on AVR.
-/

namespace VialQmk
namespace Steno

open StateMachine

/-! ## The keys of a stroke -/

/-- The keys that a keycode stands for, by their numbers. -/
def stenoKeys (b : Build) (keycode : ℕ) : List ℕ :=
  if stnMin ≤ keycode ∧ keycode ≤ stnMax then [keycode - qkSteno]
  else if b.combinedMap ∧ qkStenoComb ≤ keycode ∧ keycode ≤ qkStenoCombMax then
    [tables.first (keycode - qkStenoComb) - qkSteno,
      tables.second (keycode - qkStenoComb) - qkSteno]
  else []

/-- A key of the board is pressed or released. -/
structure Event (κ : Type*) where
  key : κ
  pressed : Bool
  /-- The words that are in RAM at the addresses of the tables meanwhile -/
  ram : Words

/-- What has happened to the keys of the board. -/
structure History (κ : Type*) where
  held : List κ
  /-- The steno keys that were pressed since the last packet -/
  chorded : List ℕ

variable {κ : Type*} [DecidableEq κ]

/-- A chord ends where no key is held any more. -/
def History.next (b : Build) (keycodeOf : κ → ℕ) (h : History κ) (e : Event κ) : History κ :=
  let held := if e.pressed then e.key :: h.held else h.held.erase e.key
  let chorded := if e.pressed then h.chorded ++ stenoKeys b (keycodeOf e.key) else h.chorded
  ⟨held, if held = [] then [] else chorded⟩

/-- A key is pressed where it is not held, and released where it is. -/
def Alternates (h : History κ) (e : Event κ) : Prop :=
  e.pressed = true ↔ e.key ∉ h.held

/-- The steno keys that are held. -/
def History.heldKeys (b : Build) (keycodeOf : κ → ℕ) (h : History κ) : List ℕ :=
  h.held.flatMap fun key => stenoKeys b (keycodeOf key)

/-! ## Packets -/

/-- The byte and the bit of a key in a packet of Gemini PR. -/
def geminiBit (key : ℕ) : ℕ × ℕ :=
  (key / 7, 6 - key % 7)

/-- A bit is set in a group of bytes. -/
def HasBit (bytes : List UInt8) (i bit : ℕ) : Prop :=
  (bytes.getD i 0).toNat.testBit bit = true

/-- The bytes have exactly the bits of the keys.  For Gemini PR these are six bytes and the top
bit of the first one; for TX Bolt the bytes of four groups without the empty ones, and a zero. -/
def IsPacket (mode : StenoMode) (keys : List ℕ) (bytes : List UInt8) : Prop :=
  match mode with
  | .gemini => bytes.length = 6 ∧
    ∀ i bit, HasBit bytes i bit ↔ (i, bit) = (0, 7) ∨ ∃ key ∈ keys, (i, bit) = geminiBit key
  | .bolt => ∃ groups : List UInt8, groups.length = 4 ∧ bytes = groups.filter (· ≠ 0) ++ [0] ∧
    ∀ i bit, HasBit groups i bit ↔
      ∃ key ∈ keys, txbGetGroup (boltmap.getD key 0) = i ∧
        (boltmap.getD key 0).toNat.testBit bit = true

/-! ## The chord as a union -/

/-- The bits of the keys in one group. -/
def union (mode : StenoMode) (keys : List ℕ) (i : ℕ) : UInt8 :=
  keys.foldl (fun byte key => if i = (keyBits mode key).1 then byte ||| (keyBits mode key).2
    else byte) 0

def chordOf (b : Build) (mode : StenoMode) (keys : List ℕ) : List UInt8 :=
  (List.range b.maxStrokeSize).map (union mode keys)

theorem union_concat (mode : StenoMode) (keys : List ℕ) (key i : ℕ) :
    union mode (keys ++ [key]) i =
      if i = (keyBits mode key).1 then union mode keys i ||| (keyBits mode key).2
      else union mode keys i := by
  unfold union
  rw [List.foldl_append]
  rfl

theorem addKeyToChord_chordOf (b : Build) (mode : StenoMode) (keys : List ℕ) (key : ℕ) :
    addKeyToChord mode key (chordOf b mode keys) = chordOf b mode (keys ++ [key]) := by
  unfold addKeyToChord chordOf
  refine List.ext_getElem (by simp) fun i hi hi' => ?_
  rw [List.getElem_modify, List.getElem_map, List.getElem_map, List.getElem_range, union_concat]
  by_cases hgroup : (keyBits mode key).1 = i
  · rw [if_pos hgroup, if_pos hgroup.symm]
  · rw [if_neg hgroup, if_neg (Ne.symm hgroup)]

theorem testBit_union (mode : StenoMode) (keys : List ℕ) (i bit : ℕ) :
    (union mode keys i).toNat.testBit bit = true ↔
      ∃ key ∈ keys, (keyBits mode key).1 = i ∧ (keyBits mode key).2.toNat.testBit bit = true := by
  induction keys using List.reverseRecOn with
  | nil => simp [union]
  | append_singleton keys key ih =>
    rw [union_concat]
    simp only [List.mem_append, List.mem_singleton, or_and_right, exists_or, exists_eq_left, ← ih]
    by_cases hgroup : i = (keyBits mode key).1
    · rw [if_pos hgroup, UInt8.toNat_or, Nat.testBit_or, Bool.or_eq_true]
      simp only [hgroup, true_and]
    · rw [if_neg hgroup]
      simp only [Ne.symm hgroup, false_and, or_false]

theorem chordOf_nil (b : Build) (mode : StenoMode) :
    chordOf b mode [] = List.replicate b.maxStrokeSize 0 :=
  List.eq_replicate_iff.mpr ⟨by simp [chordOf], fun byte hbyte => by
    obtain ⟨i, -, rfl⟩ := List.mem_map.mp hbyte
    rfl⟩

theorem hasBit_union (mode : StenoMode) (keys : List ℕ) (n i bit : ℕ) :
    HasBit ((List.range n).map (union mode keys)) i bit ↔ i < n ∧
      ∃ key ∈ keys, (keyBits mode key).1 = i ∧ (keyBits mode key).2.toNat.testBit bit = true := by
  unfold HasBit
  rw [List.getD_eq_getElem?_getD, List.getElem?_map]
  by_cases hi : i < n
  · rw [List.getElem?_range hi, Option.map_some, Option.getD_some, testBit_union]
    simp only [hi, true_and]
  · rw [List.getElem?_eq_none (by rw [List.length_range]; omega)]
    simp [hi]

/-! ## Packets of a chord -/

theorem maxStrokeSize_gemini {b : Build} (h : b.Has .gemini) : b.maxStrokeSize = 6 := by
  unfold Build.maxStrokeSize
  rw [if_neg]
  · rfl
  · intro hbolt
    rcases h with hall | honly
    · exact absurd (hall.symm.trans hbolt) (by decide)
    · exact absurd (honly.symm.trans hbolt) (by decide)

theorem four_le_maxStrokeSize (b : Build) : 4 ≤ b.maxStrokeSize := by
  unfold Build.maxStrokeSize
  split_ifs
  · decide
  · decide

/-- A key has one bit in a packet of Gemini PR, and never the top one. -/
theorem geminiBits_iff (key i bit : ℕ) :
    ((keyBits .gemini key).1 = i ∧ (keyBits .gemini key).2.toNat.testBit bit = true) ↔
      (i, bit) = geminiBit key := by
  have hpow : ∀ n < 7, ((1 : UInt8) <<< UInt8.ofNat n).toNat = 2 ^ n := by decide
  have hmod : key - key / 7 * 7 = key % 7 := by omega
  have hbits : (keyBits .gemini key).2.toNat = 2 ^ (6 - key % 7) := by
    rw [← hpow (6 - key % 7) (by omega), ← hmod]
    rfl
  have hgroup : (keyBits .gemini key).1 = key / 7 := rfl
  rw [hbits, Nat.testBit_two_pow, decide_eq_true_eq, hgroup, geminiBit, Prod.mk.injEq]
  exact and_congr eq_comm eq_comm

theorem hasBit_modify_zero {bytes : List UInt8} (h : 0 < bytes.length) (i bit : ℕ) :
    HasBit (bytes.modify 0 (· ||| 0x80)) i bit ↔ (i, bit) = (0, 7) ∨ HasBit bytes i bit := by
  have htop : (0x80 : UInt8).toNat = 2 ^ 7 := rfl
  cases bytes with
  | nil => exact absurd h (Nat.lt_irrefl 0)
  | cons byte bytes =>
    cases i with
    | zero =>
      have hfirst : HasBit ((byte :: bytes).modify 0 (· ||| 0x80)) 0 bit ↔
          (byte ||| 0x80).toNat.testBit bit = true := Iff.rfl
      rw [hfirst, UInt8.toNat_or, Nat.testBit_or, Bool.or_eq_true, htop, Nat.testBit_two_pow,
        decide_eq_true_eq, or_comm, Prod.mk.injEq]
      simp only [true_and, eq_comm (a := bit)]
      rfl
    | succ i =>
      have hrest : ¬ (i + 1, bit) = (0, 7) := by simp
      rw [or_iff_right hrest]
      rfl

theorem isPacket_gemini {b : Build} (hmode : b.Has .gemini) {keys : List ℕ}
    (hkeys : ∀ key ∈ keys, key < 42) :
    IsPacket .gemini keys (sendStenoChord .gemini (chordOf b .gemini keys)) := by
  have hsize := maxStrokeSize_gemini hmode
  have hlength : ((chordOf b .gemini keys).modify 0 (· ||| 0x80)).length = 6 := by
    rw [List.length_modify, chordOf, List.length_map, List.length_range, hsize]
  have hsent : sendStenoChord .gemini (chordOf b .gemini keys) =
      (chordOf b .gemini keys).modify 0 (· ||| 0x80) :=
    List.take_of_length_le (Nat.le_of_eq hlength)
  refine ⟨by rw [hsent, hlength], fun i bit => ?_⟩
  rw [hsent, hasBit_modify_zero (by rw [List.length_modify] at hlength; omega), chordOf, hsize,
    hasBit_union]
  simp only [geminiBits_iff]
  refine or_congr_right (and_iff_right_of_imp ?_)
  rintro ⟨key, hkey, hbit⟩
  have hlt := hkeys key hkey
  have hi : i = key / 7 := congrArg Prod.fst hbit
  omega

theorem isPacket_bolt (b : Build) (keys : List ℕ) :
    IsPacket .bolt keys (sendStenoChord .bolt (chordOf b .bolt keys)) := by
  have hgroups : (chordOf b .bolt keys).take 4 = (List.range 4).map (union .bolt keys) := by
    unfold chordOf
    rw [← List.map_take, List.take_range, Nat.min_eq_left (four_le_maxStrokeSize b)]
  refine ⟨(chordOf b .bolt keys).take 4, by simp [hgroups], rfl, fun i bit => ?_⟩
  rw [hgroups, hasBit_union]
  refine and_iff_right_of_imp ?_
  rintro ⟨key, -, hgroup, -⟩
  have hlt : (boltmap.getD key 0 &&& 0xC0).toNat ≤ 192 := by
    rw [UInt8.toNat_and]
    exact Nat.and_le_right
  have hshift : i = (boltmap.getD key 0 &&& 0xC0).toNat >>> 6 := by
    rw [← hgroup]
    exact UInt8.toNat_shiftRight _ _
  rw [hshift, Nat.shiftRight_eq_div_pow]
  omega

theorem isPacket_chordOf {b : Build} {mode : StenoMode} (hmode : b.Has mode) {keys : List ℕ}
    (hkeys : ∀ key ∈ keys, key < 42) :
    IsPacket mode keys (sendStenoChord mode (chordOf b mode keys)) := by
  cases mode with
  | gemini => exact isPacket_gemini hmode hkeys
  | bolt => exact isPacket_bolt b keys

/-! ## Events -/

/-- The chord is the union of the bits of the keys, and so many keys are held. -/
structure Holds (b : Build) (mode : StenoMode) (chorded : List ℕ) (n : ℕ) (s : State) : Prop where
  chord : s.chord = chordOf b mode chorded
  nPressedKeys : s.nPressedKeys = n
  mode : s.mode = mode

section Events

variable {b : Build} {mode : StenoMode} {chorded : List ℕ} {n : ℕ} {s : State}

theorem bmod_of_lt {n : ℤ} (hlow : -128 ≤ n) (hhigh : n < 128) : n.bmod 256 = n :=
  Int.bmod_eq_of_le (by omega) (by omega)

/-- A key that is pressed joins the chord. -/
theorem Holds.press (h : Holds b mode chorded n s) (hn : n + 1 < 128) (key : ℕ) :
    (processKey b (qkSteno + key) true s).sent = [] ∧
      Holds b mode (chorded ++ [key]) (n + 1) (processKey b (qkSteno + key) true s).state := by
  refine ⟨rfl, ⟨?_, ?_, h.mode⟩⟩
  · have hkey : qkSteno + key - qkSteno = key := Nat.add_sub_cancel_left qkSteno key
    change addKeyToChord s.mode (qkSteno + key - qkSteno) s.chord = _
    rw [hkey, h.chord, h.mode, addKeyToChord_chordOf]
  · change (s.nPressedKeys + 1).bmod 256 = _
    rw [h.nPressedKeys, bmod_of_lt (by omega) (by omega)]
    rfl

/-- A key that is released while others are held leaves the chord alone. -/
theorem Holds.release (h : Holds b mode chorded (n + 2) s) (hn : n + 2 < 128) (keycode : ℕ) :
    (processKey b keycode false s).sent = [] ∧
      Holds b mode chorded (n + 1) (processKey b keycode false s).state := by
  have hcount : (s.nPressedKeys - 1).bmod 256 = n + 1 := by
    rw [h.nPressedKeys, bmod_of_lt (by omega) (by omega)]
    omega
  have hstep : processKey b keycode false s = ⟨⟨s.chord, n + 1, s.mode⟩, [], false⟩ := by
    simp only [processKey, hcount, Bool.false_eq_true, if_false]
    exact if_pos (by omega)
  rw [hstep]
  exact ⟨rfl, h.chord, rfl, h.mode⟩

/-- The last key that is released sends the chord. -/
theorem Holds.release_last (h : Holds b mode chorded 1 s) (keycode : ℕ) :
    (processKey b keycode false s).sent = sendStenoChord mode (chordOf b mode chorded) ∧
      Holds b mode [] 0 (processKey b keycode false s).state := by
  have hcount : (s.nPressedKeys - 1).bmod 256 = 0 := by
    rw [h.nPressedKeys]
    rfl
  have hstep : processKey b keycode false s =
      ⟨stenoClearChord b ⟨s.chord, 0, s.mode⟩, sendStenoChord s.mode s.chord, false⟩ := by
    simp only [processKey, hcount, Bool.false_eq_true, if_false]
    exact if_neg (Int.lt_irrefl 0)
  rw [hstep, h.chord, h.mode]
  exact ⟨rfl, (chordOf_nil b mode).symm, rfl, rfl⟩

/-- The keys of a keycode one after the other. -/
def processKeys (b : Build) (pressed : Bool) : List ℕ → State → Result
  | [], s => ⟨s, [], true⟩
  | key :: keys, s =>
    (processKey b (qkSteno + key) pressed s).andThen (processKeys b pressed keys)

theorem Holds.pressKeys {keys : List ℕ} (h : Holds b mode chorded n s)
    (hn : n + keys.length < 128) :
    (processKeys b true keys s).sent = [] ∧
      Holds b mode (chorded ++ keys) (n + keys.length) (processKeys b true keys s).state := by
  induction keys generalizing chorded n s with
  | nil => exact ⟨rfl, by rwa [List.append_nil]⟩
  | cons key keys ih =>
    rw [List.length_cons] at hn
    obtain ⟨hsent, hpress⟩ := h.press (by omega) key
    obtain ⟨hsent', hpress'⟩ := ih hpress (by omega)
    refine ⟨?_, ?_⟩
    · change (processKey b (qkSteno + key) true s).sent ++ _ = []
      rw [hsent]
      exact hsent'
    · rw [List.append_cons, List.length_cons, Nat.add_comm keys.length, ← Nat.add_assoc]
      exact hpress'

/-- The chord is sent at the last key, if no other key is held. -/
theorem Holds.releaseKeys {keys : List ℕ} (hkeys : keys ≠ [])
    (h : Holds b mode chorded (n + keys.length) s) (hn : n + keys.length < 128) :
    if n = 0 then
      (processKeys b false keys s).sent = sendStenoChord mode (chordOf b mode chorded) ∧
        Holds b mode [] 0 (processKeys b false keys s).state
    else (processKeys b false keys s).sent = [] ∧
      Holds b mode chorded n (processKeys b false keys s).state := by
  induction keys generalizing s with
  | nil => exact absurd rfl hkeys
  | cons key keys ih =>
    rw [List.length_cons, ← Nat.add_assoc] at h hn
    by_cases hlast : n + keys.length = 0
    · obtain ⟨hn0, hlength⟩ := Nat.add_eq_zero_iff.mp hlast
      obtain rfl := List.length_eq_zero_iff.mp hlength
      subst hn0
      obtain ⟨hsent, hrelease⟩ := h.release_last (qkSteno + key)
      rw [if_pos rfl]
      refine ⟨?_, hrelease⟩
      change (processKey b (qkSteno + key) false s).sent ++ [] = _
      rw [hsent, List.append_nil]
    · obtain ⟨m, hm⟩ := Nat.exists_eq_succ_of_ne_zero hlast
      rw [hm] at h hn
      obtain ⟨hsent, hrelease⟩ := h.release hn (qkSteno + key)
      have hstep : (processKeys b false (key :: keys) s).sent =
          (processKeys b false keys (processKey b (qkSteno + key) false s).state).sent := by
        change (processKey b (qkSteno + key) false s).sent ++ _ = _
        rw [hsent, List.nil_append]
      rw [hstep]
      by_cases hnil : keys = []
      · subst hnil
        have hne : n ≠ 0 := fun hn0 => hlast (by rw [hn0]; rfl)
        rw [if_neg hne]
        refine ⟨rfl, ?_⟩
        have hcount : m + 1 = n := hm.symm
        rw [hcount] at hrelease
        exact hrelease
      · refine ih hnil ?_ (by omega)
        rw [hm]
        exact hrelease

end Events

/-! ## Keycodes -/

section Keycodes

variable {b : Build} {keycode : ℕ}

theorem processSingle_key (b : Build) {keycode : ℕ} (hmin : stnMin ≤ keycode)
    (hmax : keycode ≤ stnMax) (pressed : Bool) (s : State) :
    processSingle b keycode ⟨pressed, false⟩ s = processKey b keycode pressed s := by
  unfold stnMin at hmin
  unfold stnMax at hmax
  have hrange : ¬ (keycode < qkSteno ∨ qkStenoMax < keycode) := by
    unfold qkSteno qkStenoMax
    omega
  have hbolt : ¬ (b.enabled = .all ∧ keycode = qkStenoBolt) := by
    unfold qkStenoBolt
    omega
  have hgemini : ¬ (b.enabled = .all ∧ keycode = qkStenoGemini) := by
    unfold qkStenoGemini
    omega
  unfold processSingle
  rw [if_neg hrange, if_neg Bool.false_ne_true, if_neg hbolt, if_neg hgemini,
    if_pos ⟨hmin, hmax⟩]

theorem combined_mem (c : ℕ) (h : c ≤ qkStenoCombMax - qkStenoComb) :
    (stnMin ≤ tables.first c ∧ tables.first c ≤ stnMax) ∧
      stnMin ≤ tables.second c ∧ tables.second c ≤ stnMax := by
  revert c
  decide

theorem andThen_state (r : Result) (next : State → Result) :
    (r.andThen fun _ => next r.state) = r.andThen next :=
  rfl

theorem andThen_processKeys_nil (r : Result) (b : Build) (pressed : Bool) :
    r.andThen (processKeys b pressed []) = r := by
  unfold Result.andThen processKeys
  simp

theorem add_sub_qkSteno {keycode : ℕ} (h : stnMin ≤ keycode) :
    qkSteno + (keycode - qkSteno) = keycode :=
  Nat.add_sub_cancel' h

theorem processSteno_of_le {keycode : ℕ} (h : keycode ≤ stnMax) (ram : Words) (record : Record)
    {fuel : ℕ} (hfuel : 1 ≤ fuel) (s : State) :
    processSteno b ram record fuel keycode s = some (processSingle b keycode record s) := by
  have hsingle : ¬ (record.isNoevent = false ∧ b.combinedMap = true ∧ qkStenoComb ≤ keycode ∧
      keycode ≤ qkStenoCombMax) := by
    unfold stnMax at h
    unfold qkStenoComb
    omega
  obtain ⟨fuel, rfl⟩ := Nat.exists_eq_add_of_le' hfuel
  exact if_neg hsingle

/-- A key of the combined map is its two keys, one after the other. -/
theorem processSteno_combined (havr : b.avr = false) (hmap : b.combinedMap = true)
    (hmin : qkStenoComb ≤ keycode) (hmax : keycode ≤ qkStenoCombMax) (ram : Words)
    (record : Record) (hevent : record.isNoevent = false) {fuel : ℕ} (hfuel : 2 ≤ fuel)
    (s : State) :
    processSteno b ram record fuel keycode s = some
      ((processSingle b (tables.first (keycode - qkStenoComb)) record s).andThen
        (processSingle b (tables.second (keycode - qkStenoComb)) record)) := by
  have hindexed : b.indexed ram = tables := by
    unfold Build.indexed
    rw [havr]
    rfl
  obtain ⟨⟨-, hfirst⟩, -, hsecond⟩ :=
    combined_mem (keycode - qkStenoComb) (Nat.sub_le_sub_right hmax _)
  obtain ⟨fuel, rfl⟩ := Nat.exists_eq_add_of_le' (Nat.le_of_succ_le hfuel)
  have hrest : 1 ≤ fuel := by omega
  unfold processSteno
  rw [if_pos ⟨hevent, hmap, hmin, hmax⟩]
  dsimp only
  rw [hindexed, processSteno_of_le hfirst ram record hrest, Option.bind_some,
    processSteno_of_le hsecond ram record hrest, Option.map_some, andThen_state]

/-- The key reads no table of the combined map in the wrong address space. -/
def ReadsTables (b : Build) (keycode : ℕ) : Prop :=
  b.avr = false ∨ keycode < qkStenoComb ∨ qkStenoCombMax < keycode

/-- A key event is one of each of its keys. -/
theorem processSteno_eq (h : stenoKeys b keycode ≠ []) (hreads : ReadsTables b keycode)
    (ram : Words) (pressed : Bool) {fuel : ℕ} (hfuel : 2 ≤ fuel) (s : State) :
    (∀ key ∈ stenoKeys b keycode, key < 42) ∧
      processSteno b ram ⟨pressed, false⟩ fuel keycode s =
        some (processKeys b pressed (stenoKeys b keycode) s) := by
  have hsmall : ∀ code, code ≤ stnMax → code - qkSteno < 42 := by
    intro code hcode
    unfold stnMax at hcode
    unfold qkSteno
    omega
  by_cases hkey : stnMin ≤ keycode ∧ keycode ≤ stnMax
  · have hkeys : stenoKeys b keycode = [keycode - qkSteno] := if_pos hkey
    rw [hkeys]
    refine ⟨by simpa using hsmall keycode hkey.2, ?_⟩
    rw [processSteno_of_le hkey.2 ram _ (Nat.le_of_succ_le hfuel),
      processSingle_key b hkey.1 hkey.2]
    unfold processKeys
    rw [andThen_processKeys_nil, add_sub_qkSteno hkey.1]
  · by_cases hcombined : b.combinedMap = true ∧ qkStenoComb ≤ keycode ∧ keycode ≤ qkStenoCombMax
    · have hkeys : stenoKeys b keycode =
          [tables.first (keycode - qkStenoComb) - qkSteno,
            tables.second (keycode - qkStenoComb) - qkSteno] := by
        unfold stenoKeys
        rw [if_neg hkey, if_pos hcombined]
      obtain ⟨hmap, hmin, hmax⟩ := hcombined
      have havr : b.avr = false := by
        rcases hreads with havr | hlow | hhigh
        · exact havr
        · exact absurd hmin (Nat.not_le.mpr hlow)
        · exact absurd hmax (Nat.not_le.mpr hhigh)
      obtain ⟨⟨hfirst, hfirst'⟩, hsecond, hsecond'⟩ :=
        combined_mem (keycode - qkStenoComb) (Nat.sub_le_sub_right hmax _)
      rw [hkeys]
      refine ⟨?_, ?_⟩
      · simpa using ⟨hsmall _ hfirst', hsmall _ hsecond'⟩
      · rw [processSteno_combined havr hmap hmin hmax ram _ rfl hfuel]
        have hsecondKey : processSingle b (tables.second (keycode - qkStenoComb))
            ⟨pressed, false⟩ = processKeys b pressed
              [tables.second (keycode - qkStenoComb) - qkSteno] := by
          funext s
          unfold processKeys
          rw [processSingle_key b hsecond hsecond', andThen_processKeys_nil,
            add_sub_qkSteno hsecond]
        rw [hsecondKey, processSingle_key b hfirst hfirst']
        conv_rhs => unfold processKeys
        rw [add_sub_qkSteno hfirst]
    · refine absurd ?_ h
      unfold stenoKeys
      rw [if_neg hkey, if_neg hcombined]

end Keycodes

/-! ## Runs -/

section Runs

variable (b : Build) (mode : StenoMode) (keycodeOf : κ → ℕ)

/-- No key is held, and the chord is empty. -/
def init : History κ × State :=
  (⟨[], []⟩, ⟨List.replicate b.maxStrokeSize 0, 0, mode⟩)

/-- What the firmware does at an event. -/
def eventResult (fuel : ℕ) (s : History κ × State) (e : Event κ) : Option Result :=
  processSteno b e.ram ⟨e.pressed, false⟩ fuel (keycodeOf e.key) s.2

def stepEvent (fuel : ℕ) (s : History κ × State) (e : Event κ) : History κ × State :=
  (s.1.next b keycodeOf e, (eventResult b keycodeOf fuel s e).elim s.2 Result.state)

/-- Each key alternates, and fewer than 128 steno keys are held. -/
def Proper (s : History κ × State) (e : Event κ) : Prop :=
  Alternates s.1 e ∧ ((s.1.next b keycodeOf e).heldKeys b keycodeOf).length < 128

/-- The event ends.  Where no key is held any more the packet of the keys is sent and the chord
is empty; elsewhere nothing is sent. -/
def Complete (fuel : ℕ) (s : History κ × State) (e : Event κ) : Prop :=
  ∃ r, eventResult b keycodeOf fuel s e = some r ∧
    if (s.1.next b keycodeOf e).held = [] then
      IsPacket mode s.1.chorded r.sent ∧ r.state.chord = List.replicate b.maxStrokeSize 0
    else r.sent = []

/-- The chord and the counter fit what has happened to the keys. -/
structure Fits (s : History κ × State) : Prop where
  holds : Holds b mode s.1.chorded (s.1.heldKeys b keycodeOf).length s.2
  small : ∀ key ∈ s.1.chorded, key < 42
  few : (s.1.heldKeys b keycodeOf).length < 128

omit [DecidableEq κ] in
theorem fits_init : Fits b mode keycodeOf (init b mode) where
  holds := ⟨(chordOf_nil b mode).symm, rfl, rfl⟩
  small := fun _ hkey => absurd hkey List.not_mem_nil
  few := Nat.zero_lt_succ 127

variable {b mode keycodeOf} {fuel : ℕ}

/-- The keys that are held without the one that is released. -/
theorem length_heldKeys_erase (b : Build) (keycodeOf : κ → ℕ) {h : History κ} {key : κ}
    (hkey : key ∈ h.held) :
    (h.heldKeys b keycodeOf).length =
      ((h.held.erase key).flatMap fun key => stenoKeys b (keycodeOf key)).length +
        (stenoKeys b (keycodeOf key)).length := by
  have hperm := (List.perm_cons_erase hkey).flatMap_right fun key => stenoKeys b (keycodeOf key)
  rw [History.heldKeys, hperm.length_eq, List.flatMap_cons, List.length_append, Nat.add_comm]

/-- A key that is pressed. -/
theorem Fits.press {history : History κ} {state : State} {key : κ} {ram : Words}
    (hsteno : stenoKeys b (keycodeOf key) ≠ []) (hfuel : 2 ≤ fuel)
    (h : Fits b mode keycodeOf (history, state))
    (hproper : Proper b keycodeOf (history, state) ⟨key, true, ram⟩)
    (hreads : ReadsTables b (keycodeOf key)) :
    Fits b mode keycodeOf (stepEvent b keycodeOf fuel (history, state) ⟨key, true, ram⟩) ∧
      Complete b mode keycodeOf fuel (history, state) ⟨key, true, ram⟩ := by
  obtain ⟨hsmall, hresult⟩ := processSteno_eq hsteno hreads ram true hfuel state
  have hevent : eventResult b keycodeOf fuel (history, state) ⟨key, true, ram⟩ =
      some (processKeys b true (stenoKeys b (keycodeOf key)) state) := hresult
  have hnext : history.next b keycodeOf ⟨key, true, ram⟩ =
      ⟨key :: history.held, history.chorded ++ stenoKeys b (keycodeOf key)⟩ := rfl
  have hlength : ((history.next b keycodeOf ⟨key, true, ram⟩).heldKeys b keycodeOf).length =
      (history.heldKeys b keycodeOf).length + (stenoKeys b (keycodeOf key)).length := by
    rw [hnext, History.heldKeys, List.flatMap_cons, List.length_append, Nat.add_comm]
    rfl
  have hfew := hproper.2
  rw [hlength] at hfew
  obtain ⟨hsent, hholds⟩ := h.holds.pressKeys hfew
  refine ⟨⟨?_, ?_, ?_⟩, ?_⟩
  · unfold stepEvent
    rw [hevent, hlength]
    exact hholds
  · intro other hother
    rcases List.mem_append.mp hother with hother | hother
    · exact h.small other hother
    · exact hsmall other hother
  · exact hproper.2
  · refine ⟨_, hevent, ?_⟩
    rw [if_neg (by rw [hnext]; exact List.cons_ne_nil _ _)]
    exact hsent

/-- A key that is released. -/
theorem Fits.release {history : History κ} {state : State} {key : κ} {ram : Words}
    (hsteno : ∀ key, stenoKeys b (keycodeOf key) ≠ []) (hfuel : 2 ≤ fuel)
    (h : Fits b mode keycodeOf (history, state)) (hmode : b.Has mode)
    (hproper : Proper b keycodeOf (history, state) ⟨key, false, ram⟩)
    (hreads : ReadsTables b (keycodeOf key)) :
    Fits b mode keycodeOf (stepEvent b keycodeOf fuel (history, state) ⟨key, false, ram⟩) ∧
      Complete b mode keycodeOf fuel (history, state) ⟨key, false, ram⟩ := by
  obtain ⟨-, hresult⟩ := processSteno_eq (hsteno key) hreads ram false hfuel state
  have hevent : eventResult b keycodeOf fuel (history, state) ⟨key, false, ram⟩ =
      some (processKeys b false (stenoKeys b (keycodeOf key)) state) := hresult
  have hheld : key ∈ history.held :=
    not_not.mp fun hnot => Bool.false_ne_true (hproper.1.mpr hnot)
  have hcount := length_heldKeys_erase b keycodeOf hheld
  have hholds := h.holds
  have hfew := h.few
  rw [hcount] at hholds hfew
  have hrelease := hholds.releaseKeys (hsteno key) hfew
  by_cases herase : history.held.erase key = []
  · have hnext : history.next b keycodeOf ⟨key, false, ram⟩ = ⟨[], []⟩ := by
      simp only [History.next, Bool.false_eq_true, if_false, herase, if_true]
    have hzero : ((history.held.erase key).flatMap
        fun key => stenoKeys b (keycodeOf key)).length = 0 := by
      rw [herase]
      rfl
    rw [if_pos hzero] at hrelease
    obtain ⟨hsent, hempty⟩ := hrelease
    refine ⟨?_, _, hevent, ?_⟩
    · unfold stepEvent
      rw [hevent, hnext]
      exact ⟨hempty, fun _ hother => absurd hother List.not_mem_nil, Nat.zero_lt_succ 127⟩
    · rw [hnext, if_pos rfl, hsent]
      exact ⟨isPacket_chordOf hmode h.small, hempty.chord.trans (chordOf_nil b mode)⟩
  · have hnext : history.next b keycodeOf ⟨key, false, ram⟩ =
        ⟨history.held.erase key, history.chorded⟩ := by
      simp only [History.next, Bool.false_eq_true, if_false, herase]
    have hpos : ¬ ((history.held.erase key).flatMap
        fun key => stenoKeys b (keycodeOf key)).length = 0 := by
      intro hzero
      obtain ⟨other, hother⟩ := List.exists_mem_of_ne_nil _ herase
      exact hsteno other
        (List.flatMap_eq_nil_iff.mp (List.length_eq_zero_iff.mp hzero) other hother)
    rw [if_neg hpos] at hrelease
    obtain ⟨hsent, hholds'⟩ := hrelease
    refine ⟨?_, _, hevent, ?_⟩
    · unfold stepEvent
      rw [hevent, hnext]
      exact ⟨hholds', h.small, by rw [← hnext]; exact hproper.2⟩
    · rw [hnext, if_neg herase]
      exact hsent

theorem Fits.event (hsteno : ∀ key, stenoKeys b (keycodeOf key) ≠ []) (hfuel : 2 ≤ fuel)
    {s : History κ × State} {e : Event κ} (h : Fits b mode keycodeOf s) (hmode : b.Has mode)
    (hproper : Proper b keycodeOf s e) (hreads : ReadsTables b (keycodeOf e.key)) :
    Fits b mode keycodeOf (stepEvent b keycodeOf fuel s e) ∧
      Complete b mode keycodeOf fuel s e := by
  obtain ⟨history, state⟩ := s
  obtain ⟨key, pressed, ram⟩ := e
  cases pressed with
  | true => exact h.press (hsteno key) hfuel hproper hreads
  | false => exact h.release hsteno hfuel hmode hproper hreads

/-- A packet is sent just when the last key is released, if no key of the combined map is used on
AVR.  The packet has the bits of the keys that were pressed since the packet before, and the chord
is empty afterwards.  Distinct keys have distinct bits in a packet of Gemini PR, the first seven
ones of a byte, and a key of the combined map is its two keys. -/
theorem chords_complete (b : Build) (mode : StenoMode) (hmode : b.Has mode) (keycodeOf : κ → ℕ)
    (hsteno : ∀ key, stenoKeys b (keycodeOf key) ≠ []) (fuel : ℕ) (hfuel : 2 ≤ fuel)
    (events : List (Event κ))
    (hproper : Along (stepEvent b keycodeOf fuel)
      (fun s e => Proper b keycodeOf s e ∧ ReadsTables b (keycodeOf e.key)) (init b mode) events) :
    Along (stepEvent b keycodeOf fuel) (Complete b mode keycodeOf fuel) (init b mode) events ∧
      (∀ key key', geminiBit key = geminiBit key' → key = key') ∧
      (∀ key, (geminiBit key).2 < 7) ∧
      ∀ keycode, b.combinedMap = true → qkStenoComb ≤ keycode → keycode ≤ qkStenoCombMax →
        ReadsTables b keycode → ∀ pressed ram s,
          processSteno b ram ⟨pressed, false⟩ fuel keycode s =
            (processSteno b ram ⟨pressed, false⟩ fuel (tables.first (keycode - qkStenoComb))
              s).bind fun r =>
              (processSteno b ram ⟨pressed, false⟩ fuel (tables.second (keycode - qkStenoComb))
                r.state).map fun r' => r.andThen fun _ => r' := by
  have hone : 1 ≤ fuel := Nat.le_of_succ_le hfuel
  refine ⟨?_, ?_, ?_, ?_⟩
  · exact along_of_invariant (Fits b mode keycodeOf)
      (fun s e hfits hstep => (hfits.event hsteno hfuel hmode hstep.1 hstep.2).1)
      (fun s e hfits hstep => (hfits.event hsteno hfuel hmode hstep.1 hstep.2).2)
      (fits_init b mode keycodeOf) hproper
  · intro key key' hbit
    have hgroup := congrArg Prod.fst hbit
    have hplace := congrArg Prod.snd hbit
    simp only [geminiBit] at hgroup hplace
    omega
  · intro key
    simp only [geminiBit]
    omega
  · intro keycode hmap hmin hmax hreads pressed ram s
    have havr : b.avr = false := hreads.resolve_right (by omega)
    obtain ⟨⟨-, hfirst⟩, -, hsecond⟩ :=
      combined_mem (keycode - qkStenoComb) (Nat.sub_le_sub_right hmax _)
    rw [processSteno_combined havr hmap hmin hmax ram _ rfl hfuel,
      processSteno_of_le hfirst ram _ hone, Option.bind_some,
      processSteno_of_le hsecond ram _ hone, Option.map_some, andThen_state]

/-- Three keys of a board: two of a stroke and one of the combined map. -/
def someKeycode : Fin 3 → ℕ
  | 0 => 0x74C7
  | 1 => 0x74D8
  | 2 => 0x74F3

/-- RAM that holds zeros at the addresses of the tables -/
def zeroRam : Words :=
  ⟨fun _ => 0, fun _ => 0⟩

theorem chords_complete_roll :
    Along (stepEvent ⟨.all, true, false⟩ someKeycode 2)
      (Complete ⟨.all, true, false⟩ .gemini someKeycode 2) (init ⟨.all, true, false⟩ .gemini)
      [⟨0, true, zeroRam⟩, ⟨2, true, zeroRam⟩, ⟨0, false, zeroRam⟩, ⟨1, true, zeroRam⟩,
        ⟨2, false, zeroRam⟩, ⟨1, false, zeroRam⟩, ⟨0, true, zeroRam⟩, ⟨0, false, zeroRam⟩] :=
  (chords_complete ⟨.all, true, false⟩ .gemini (Or.inl rfl) someKeycode (by decide) 2
    (Nat.le_refl 2) _
    (by simp only [Along, Proper, Alternates, ReadsTables, true_or, and_true]; decide)).1

/-- On AVR the words of RAM are zeros, which are no steno keycodes: a key of the combined map is
pressed and released, and no packet is sent. -/
theorem not_complete_avr :
    Along (stepEvent ⟨.all, true, true⟩ someKeycode 2)
        (Proper ⟨.all, true, true⟩ someKeycode) (init ⟨.all, true, true⟩ .gemini)
        [⟨2, true, zeroRam⟩, ⟨2, false, zeroRam⟩] ∧
      ¬ Along (stepEvent ⟨.all, true, true⟩ someKeycode 2)
        (Complete ⟨.all, true, true⟩ .gemini someKeycode 2) (init ⟨.all, true, true⟩ .gemini)
        [⟨2, true, zeroRam⟩, ⟨2, false, zeroRam⟩] := by
  refine ⟨by simp only [Along, Proper, Alternates]; decide, fun h => ?_⟩
  obtain ⟨-, ⟨r, hresult, hcomplete⟩, -⟩ := h
  obtain rfl := Option.some.inj hresult
  have hpacket := (if_pos rfl : _ = _).mp hcomplete
  exact absurd hpacket.1.1 (by decide)

end Runs

end Steno
end VialQmk
