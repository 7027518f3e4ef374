import Mathlib.Data.Nat.Bitwise
import Mathlib.Logic.Function.Basic
import Mathlib.Tactic.Common

/-!
# The source layer cache

When a key is pressed, the layer its action came from is kept until the release.  The
layers of all keys lie in one table, and those of all encoders in a second one, one bit of
the layer in each plane: byte {lit}`entry / 8` of a plane has the bit of eight entries.
An access outside of a table, or a shift by more than a byte, is {lit}`none`.

Main results:

- Theorem {lit}`updateSourceLayersCacheImpl_spec`: an update sets the bits of one entry
  and no other bit.
- Theorem {lit}`readSourceLayersCacheImpl_spec`: a read gathers the bits of its entry.
- Theorem {lit}`refinesLayerMap`: the two tables are a map from keys and encoders to
  layers, for every build.
-/

namespace VialQmk
namespace SourceCache

/-! ## The build -/

/-- The constants of a build the cache depends on. -/
structure Build where
  matrixRows : ℕ
  matrixCols : ℕ
  /-- `NUM_ENCODERS` -/
  numEncoders : ℕ
  encoderMapEnable : Bool
  vialEnable : Bool
  /-- `DYNAMIC_KEYMAP_LAYER_COUNT`, where dynamic keymaps are enabled; then it is also
  `MAX_LAYER`. -/
  dynamicKeymapLayerCount : Option ℕ
  layerState8Bit : Bool
  layerState16Bit : Bool
  layerState32Bit : Bool
  /-- `matrix.h` has no row type for more columns. -/
  cols_le : matrixCols ≤ 32

/-- `MAX_LAYER_BITS`, by the layer state types the build and the layer count define. -/
def Build.maxLayerBits (b : Build) : ℕ :=
  match b.dynamicKeymapLayerCount with
  | some count =>
    if b.layerState8Bit ∨ count ≤ 8 then 3
    else if b.layerState16Bit ∨ count ≤ 16 then 4
    else 5
  | none =>
    if b.layerState8Bit then 3
    else if b.layerState16Bit ∨ ¬ b.layerState32Bit then 4
    else 5

theorem Build.maxLayerBits_le (b : Build) : b.maxLayerBits ≤ 5 := by
  unfold maxLayerBits
  split <;> split_ifs <;> omega

/-! ## Tables of bit planes -/

/-- A table of {lit}`bits` planes with {lit}`slots` bytes each. -/
abbrev Cache (slots bits : ℕ) :=
  Fin slots → Fin bits → UInt8

namespace Cache

variable {slots bits : ℕ}

/-- The byte `cache[i][j]`. -/
def load (c : Cache slots bits) (i j : ℕ) : Option UInt8 :=
  if h : i < slots ∧ j < bits then some (c ⟨i, h.1⟩ ⟨j, h.2⟩) else none

/-- The assignment `cache[i][j] = x`. -/
def store (c : Cache slots bits) (i j : ℕ) (x : UInt8) : Option (Cache slots bits) :=
  if h : i < slots ∧ j < bits then
    some (Function.update c ⟨i, h.1⟩ (Function.update (c ⟨i, h.1⟩) ⟨j, h.2⟩ x))
  else none

/-- The bit that plane {lit}`j` has for an entry. -/
def bitAt (c : Cache slots bits) (entry j : ℕ) : Bool :=
  match c.load (entry / 8) j with
  | some byte => byte.toNat.testBit (entry % 8)
  | none => false

theorem load_isSome {c : Cache slots bits} {i j : ℕ} (hi : i < slots) (hj : j < bits) :
    ∃ byte, c.load i j = some byte :=
  ⟨_, dif_pos ⟨hi, hj⟩⟩

/-- A store in the table shows there, and nowhere else. -/
theorem load_store {c : Cache slots bits} {i j : ℕ} (hi : i < slots) (hj : j < bits)
    (x : UInt8) :
    ∃ c', c.store i j x = some c' ∧
      ∀ a b, c'.load a b = if a = i ∧ b = j then some x else c.load a b := by
  refine ⟨_, dif_pos ⟨hi, hj⟩, ?_⟩
  intro a b
  by_cases hin : a < slots ∧ b < bits
  · simp only [load, dif_pos hin, Function.update_apply, Fin.ext_iff]
    by_cases ha : a = i
    · subst ha
      by_cases hb : b = j <;> simp [hb, Fin.ext_iff]
    · simp [ha]
  · have hne : ¬ (a = i ∧ b = j) := by
      rintro ⟨rfl, rfl⟩
      exact hin ⟨hi, hj⟩
    simp only [load, dif_neg hin, if_neg hne]

end Cache

/-! ## Updating and reading an entry -/

/-- A shift within a byte. -/
def shl (x : UInt8) (n : ℕ) : Option UInt8 :=
  if n < 8 then some (x <<< UInt8.ofNat n) else none

/-- The byte of a condition: `-(c != 0)` after it is cut to a byte. -/
def spread (c : Bool) : UInt8 :=
  if c then 0xFF else 0

section Tables

variable {slots bits : ℕ}

/-- One round of the loop of `update_source_layers_cache_impl`. -/
def updatePlane (layer : UInt8) (entryNumber : ℕ) (c : Cache slots bits) (bitNumber : ℕ) :
    Option (Cache slots bits) := do
  let storageIdx := entryNumber / 8
  let storageBit := entryNumber % 8
  let byte ← c.load storageIdx bitNumber
  let layerBit ← shl 1 bitNumber
  let entryBit ← shl 1 storageBit
  c.store storageIdx bitNumber
    (byte ^^^ ((spread (layer &&& layerBit != 0) ^^^ byte) &&& entryBit))

/-- `update_source_layers_cache_impl`. -/
def updateSourceLayersCacheImpl (layer : UInt8) (entryNumber : ℕ) (c : Cache slots bits) :
    Option (Cache slots bits) :=
  (List.range bits).foldlM (updatePlane layer entryNumber) c

/-- One round of the loop of `read_source_layers_cache_impl`. -/
def readPlane (entryNumber : ℕ) (c : Cache slots bits) (layer : UInt8) (bitNumber : ℕ) :
    Option UInt8 := do
  let storageIdx := entryNumber / 8
  let storageBit := entryNumber % 8
  let byte ← c.load storageIdx bitNumber
  let entryBit ← shl 1 storageBit
  let layerBit ← shl (if byte &&& entryBit != 0 then 1 else 0) bitNumber
  some (layer ||| layerBit)

/-- `read_source_layers_cache_impl`. -/
def readSourceLayersCacheImpl (entryNumber : ℕ) (c : Cache slots bits) : Option UInt8 :=
  (List.range bits).foldlM (readPlane entryNumber c) 0

/-! ## The bits of an entry -/

/-- A single bit, or none, shifted into its place. -/
theorem shl_bool (b : Bool) {n : ℕ} (hn : n < 8) :
    ∃ y, shl (if b then 1 else 0) n = some y ∧ ∀ k, y.toNat.testBit k = (b && decide (k = n)) := by
  refine ⟨_, if_pos hn, ?_⟩
  intro k
  cases b with
  | false => simp
  | true =>
    have hlt : 2 ^ n < 256 := Nat.pow_lt_pow_right (by decide) hn
    simp [Nat.shiftLeft_eq, Nat.mod_eq_of_lt hn, Nat.mod_eq_of_lt hlt,
      Nat.testBit_two_pow, eq_comm]

theorem testBit_spread (c : Bool) {k : ℕ} (hk : k < 8) : (spread c).toNat.testBit k = c := by
  cases c with
  | false => simp [spread]
  | true =>
    have hff : (spread true).toNat = 2 ^ 8 - 1 := by decide
    rw [hff, Nat.testBit_two_pow_sub_one, decide_eq_true hk]

/-- A mask of one bit tests that bit. -/
theorem and_bit_ne_zero {x y : UInt8} {n : ℕ} (hy : ∀ k, y.toNat.testBit k = decide (k = n)) :
    (x &&& y != 0) = x.toNat.testBit n := by
  have hbit : ∀ k, (x &&& y).toNat.testBit k = (x.toNat.testBit k && decide (k = n)) := by
    intro k
    rw [UInt8.toNat_and, Nat.testBit_and, hy k]
  rw [Bool.eq_iff_iff]
  constructor
  · intro hne
    by_contra hclear
    refine absurd ?_ (bne_iff_ne.mp hne)
    apply UInt8.toNat_inj.mp
    apply Nat.eq_of_testBit_eq
    intro k
    rw [hbit k]
    by_cases hk : k = n
    · subst hk
      simp [hclear]
    · simp [hk]
  · intro hset
    rw [bne_iff_ne]
    intro hzero
    have := hbit n
    rw [hzero, hset] at this
    simp at this

/-- The assignment of the source sets one bit of the byte. -/
theorem testBit_assign {byte y : UInt8} {n : ℕ} (v : Bool)
    (hy : ∀ k, y.toNat.testBit k = decide (k = n)) {k : ℕ} (hk : k < 8) :
    (byte ^^^ ((spread v ^^^ byte) &&& y)).toNat.testBit k =
      if k = n then v else byte.toNat.testBit k := by
  rw [UInt8.toNat_xor, UInt8.toNat_and, UInt8.toNat_xor, Nat.testBit_xor, Nat.testBit_and,
    Nat.testBit_xor, testBit_spread v hk, hy k]
  by_cases hkn : k = n
  · rw [if_pos hkn, decide_eq_true hkn]
    cases v <;> cases byte.toNat.testBit k <;> rfl
  · rw [if_neg hkn, decide_eq_false hkn]
    simp

/-- One round sets the bit of the entry in one plane. -/
theorem updatePlane_spec {c : Cache slots bits} (layer : UInt8) {n j : ℕ}
    (hn : n / 8 < slots) (hj : j < bits) (hbits : bits ≤ 8) :
    ∃ c', updatePlane layer n c j = some c' ∧
      ∀ m k, c'.bitAt m k = if m = n ∧ k = j then layer.toNat.testBit j else c.bitAt m k := by
  obtain ⟨byte, hload⟩ := c.load_isSome hn hj
  obtain ⟨layerBit, hlayerBit, hlayer⟩ := shl_bool true (Nat.lt_of_lt_of_le hj hbits)
  obtain ⟨entryBit, hentryBit, hentry⟩ := shl_bool true (Nat.mod_lt n (by decide : 0 < 8))
  simp only [if_true, Bool.true_and] at hlayerBit hlayer hentryBit hentry
  obtain ⟨c', hstore, hcells⟩ := c.load_store hn hj
    (byte ^^^ ((spread (layer &&& layerBit != 0) ^^^ byte) &&& entryBit))
  refine ⟨c', by simp [updatePlane, hload, hlayerBit, hentryBit, hstore], ?_⟩
  intro m k
  simp only [Cache.bitAt, hcells]
  by_cases hcell : m / 8 = n / 8 ∧ k = j
  · rw [if_pos hcell, and_bit_ne_zero hlayer]
    simp only [testBit_assign _ hentry (Nat.mod_lt m (by decide : 0 < 8))]
    -- In the same byte, entries are told apart by their bit.
    have hentries : m % 8 = n % 8 ↔ m = n ∧ k = j := by omega
    simp only [hentries, hcell.1, hcell.2, hload]
  · have hentries : ¬ (m = n ∧ k = j) := by
      rintro ⟨rfl, rfl⟩
      exact hcell ⟨rfl, rfl⟩
    rw [if_neg hcell, if_neg hentries]

/-- An update sets the bits of one entry, and no others. -/
theorem updateSourceLayersCacheImpl_spec (c : Cache slots bits) (layer : UInt8) {n : ℕ}
    (hn : n / 8 < slots) (hbits : bits ≤ 8) :
    ∃ c', updateSourceLayersCacheImpl layer n c = some c' ∧
      ∀ m k, c'.bitAt m k =
        if m = n ∧ k < bits then layer.toNat.testBit k else c.bitAt m k := by
  -- After `j` rounds the first `j` planes are done.
  have hrounds : ∀ j, j ≤ bits → ∃ c', (List.range j).foldlM (updatePlane layer n) c = some c' ∧
      ∀ m k, c'.bitAt m k = if m = n ∧ k < j then layer.toNat.testBit k else c.bitAt m k := by
    intro j
    induction j with
    | zero => exact fun _ => ⟨c, rfl, by simp⟩
    | succ j ih =>
      intro hj
      obtain ⟨c₁, hc₁, hfirst⟩ := ih (by omega)
      obtain ⟨c₂, hc₂, hlast⟩ := updatePlane_spec (c := c₁) layer hn hj hbits
      refine ⟨c₂, by simp [List.range_succ, List.foldlM_append, hc₁, hc₂], ?_⟩
      intro m k
      rw [hlast m k, hfirst m k]
      by_cases hk : k = j
      · subst hk
        by_cases hm : m = n <;> simp [hm]
      · have hlt : k < j + 1 ↔ k < j := by omega
        simp only [hk, and_false, if_false, hlt]
  exact hrounds bits le_rfl

/-- A read gathers the bits of the entry. -/
theorem readSourceLayersCacheImpl_spec (c : Cache slots bits) {n : ℕ}
    (hn : n / 8 < slots) (hbits : bits ≤ 8) :
    ∃ layer, readSourceLayersCacheImpl n c = some layer ∧
      ∀ k, layer.toNat.testBit k = (decide (k < bits) && c.bitAt n k) := by
  have hrounds : ∀ j, j ≤ bits → ∃ layer, (List.range j).foldlM (readPlane n c) 0 = some layer ∧
      ∀ k, layer.toNat.testBit k = (decide (k < j) && c.bitAt n k) := by
    intro j
    induction j with
    | zero => exact fun _ => ⟨0, rfl, by simp⟩
    | succ j ih =>
      intro hj
      obtain ⟨layer, hlayer, hgathered⟩ := ih (by omega)
      obtain ⟨byte, hload⟩ := c.load_isSome hn hj
      obtain ⟨entryBit, hentryBit, hentry⟩ := shl_bool true (Nat.mod_lt n (by decide : 0 < 8))
      simp only [if_true, Bool.true_and] at hentryBit hentry
      obtain ⟨y, hy, hplane⟩ := shl_bool (byte &&& entryBit != 0) (Nat.lt_of_lt_of_le hj hbits)
      have hround : readPlane n c layer j = some (layer ||| y) := by
        simp only [readPlane, hload, hentryBit, hy, Option.bind_eq_bind, Option.bind_some]
      refine ⟨layer ||| y, by simp [List.range_succ, List.foldlM_append, hlayer, hround], ?_⟩
      intro k
      rw [UInt8.toNat_or, Nat.testBit_or, hgathered k, hplane k, and_bit_ne_zero hentry]
      by_cases hk : k = j
      · subst hk
        simp [Cache.bitAt, hload]
      · have hlt : k < j + 1 ↔ k < j := by omega
        simp [hk, hlt]
  exact hrounds bits le_rfl

/-- What was stored in an entry is read back, if the planes have its bits. -/
theorem readSourceLayersCacheImpl_eq {c : Cache slots bits} {n : ℕ} {layer : UInt8}
    (hn : n / 8 < slots) (hbits : bits ≤ 8) (hlayer : layer.toNat < 2 ^ bits)
    (h : ∀ k, k < bits → c.bitAt n k = layer.toNat.testBit k) :
    readSourceLayersCacheImpl n c = some layer := by
  obtain ⟨layer', hread, hgathered⟩ := readSourceLayersCacheImpl_spec c hn hbits
  rw [hread, Option.some_inj]
  apply UInt8.toNat_inj.mp
  apply Nat.eq_of_testBit_eq
  intro k
  rw [hgathered k]
  by_cases hk : k < bits
  · rw [decide_eq_true hk, h k hk, Bool.true_and]
  · rw [decide_eq_false hk, Bool.false_and]
    exact (Nat.testBit_lt_two_pow
      (Nat.lt_of_lt_of_le hlayer (Nat.pow_le_pow_right (by decide) (by omega)))).symm

end Tables

/-! ## The two tables -/

/-- A position of an event, as in `keypos_t`. -/
structure KeyPos where
  col : UInt8
  row : UInt8
  deriving DecidableEq

def keylocEncoderCw : UInt8 := 253
def keylocEncoderCcw : UInt8 := 252
def vialMatrixMagic : UInt8 := 240

/-- Both tables of a build. -/
structure Caches (b : Build) where
  sourceLayersCache : Cache ((b.matrixRows * b.matrixCols + 7) / 8) b.maxLayerBits
  encoderSourceLayersCache : Cache ((b.numEncoders + 7) / 8) b.maxLayerBits

/-- The tables at the start. -/
def Caches.init (b : Build) : Caches b where
  sourceLayersCache := fun _ _ => 0
  encoderSourceLayersCache := fun _ _ => 0

variable {b : Build}

/-- The entry number of a key, a `uint16_t`. -/
def entryNumber (b : Build) (key : KeyPos) : ℕ :=
  (key.row.toNat * b.matrixCols % 2 ^ 16 + key.col.toNat) % 2 ^ 16

/-- `update_source_layers_cache`. -/
def updateSourceLayersCache (s : Caches b) (key : KeyPos) (layer : UInt8) : Option (Caches b) :=
  if b.vialEnable ∧ key.row = vialMatrixMagic then some s
  else if key.row.toNat < b.matrixRows ∧ key.col.toNat < b.matrixCols then do
    let cache ← updateSourceLayersCacheImpl layer (entryNumber b key) s.sourceLayersCache
    some { s with sourceLayersCache := cache }
  else if b.encoderMapEnable ∧ (key.row = keylocEncoderCw ∨ key.row = keylocEncoderCcw) then do
    let cache ← updateSourceLayersCacheImpl layer key.col.toNat s.encoderSourceLayersCache
    some { s with encoderSourceLayersCache := cache }
  else some s

/-- `read_source_layers_cache`. -/
def readSourceLayersCache (s : Caches b) (key : KeyPos) : Option UInt8 :=
  if b.vialEnable ∧ key.row = vialMatrixMagic then some 0
  else if key.row.toNat < b.matrixRows ∧ key.col.toNat < b.matrixCols then
    readSourceLayersCacheImpl (entryNumber b key) s.sourceLayersCache
  else if b.encoderMapEnable ∧ (key.row = keylocEncoderCw ∨ key.row = keylocEncoderCcw) then
    readSourceLayersCacheImpl key.col.toNat s.encoderSourceLayersCache
  else some 0

/-! ## The map -/

/-- What has a layer of its own: a key of the matrix, or an encoder. -/
inductive Entry
  | key (row col : UInt8)
  | encoder (index : UInt8)
  deriving DecidableEq

/-- Where an event can come from: a key, or an encoder that turns one way. -/
inductive Source
  | key (row col : UInt8)
  | encoder (index : UInt8) (clockwise : Bool)
  deriving DecidableEq

/-- The position in the events of a source. -/
def Source.pos : Source → KeyPos
  | key row col => { col, row }
  | encoder index clockwise =>
    { col := index, row := if clockwise then keylocEncoderCw else keylocEncoderCcw }

/-- Both directions of an encoder share their layer. -/
def Source.entry : Source → Entry
  | key row col => .key row col
  | encoder index _ => .encoder index

/-- The sources the build has. -/
def Source.InRange (b : Build) : Source → Prop
  | key row col => row.toNat < b.matrixRows ∧ col.toNat < b.matrixCols
  | encoder index _ => b.encoderMapEnable ∧ index.toNat < b.numEncoders

/-- The source keeps off the reserved positions: a key is not in the row of Vial's own
events, and the positions of an encoder are not those of a key. -/
def Source.OffReserved (b : Build) : Source → Prop
  | key row _ => ¬ (b.vialEnable ∧ row = vialMatrixMagic)
  | encoder index clockwise =>
    ¬ ((encoder index clockwise).pos.row.toNat < b.matrixRows ∧ index.toNat < b.matrixCols)

/-- The layers of all entries. -/
abbrev LayerMap :=
  Entry → UInt8

/-- An update of the cache: a source, and its layer. -/
structure Update where
  source : Source
  layer : UInt8

/-- The layer last stored for each entry, and zero without one. -/
def lastStored (updates : List Update) : LayerMap :=
  updates.foldl (fun layers u => Function.update layers u.source.entry u.layer) fun _ => 0

/-- The updates, one after the other. -/
def runUpdates (updates : List Update) (s : Caches b) : Option (Caches b) :=
  updates.foldlM (fun s u => updateSourceLayersCache s u.source.pos u.layer) s

/-! ## Refinement -/

/-- The bit of an entry in one plane. -/
def Caches.bitAt (s : Caches b) : Entry → ℕ → Bool
  | .key row col => s.sourceLayersCache.bitAt (row.toNat * b.matrixCols + col.toNat)
  | .encoder index => s.encoderSourceLayersCache.bitAt index.toNat

/-- The tables have the layers of the map, which fit in the planes. -/
structure Represents (s : Caches b) (layers : LayerMap) : Prop where
  bits : ∀ source : Source, source.InRange b → ∀ k < b.maxLayerBits,
    s.bitAt source.entry k = (layers source.entry).toNat.testBit k
  fits : ∀ entry, (layers entry).toNat < 2 ^ b.maxLayerBits

/-- Keys have different numbers, since a column is less than the number of columns. -/
theorem keyNumber_inj {row col row' col' : UInt8} (h : col.toNat < b.matrixCols)
    (h' : col'.toNat < b.matrixCols)
    (heq : row'.toNat * b.matrixCols + col'.toNat = row.toNat * b.matrixCols + col.toNat) :
    row' = row ∧ col' = col := by
  have hpos : 0 < b.matrixCols := by omega
  have hrow := congrArg (· / b.matrixCols) heq
  have hcol := congrArg (· % b.matrixCols) heq
  simp only [Nat.mul_comm _ b.matrixCols, Nat.mul_add_div hpos, Nat.mul_add_mod,
    Nat.div_eq_of_lt h, Nat.div_eq_of_lt h', Nat.mod_eq_of_lt h, Nat.mod_eq_of_lt h',
    Nat.add_zero] at hrow hcol
  exact ⟨UInt8.toNat_inj.mp hrow, UInt8.toNat_inj.mp hcol⟩

/-- The number of a key does not overflow, and is a place of the table. -/
theorem entryNumber_eq {row col : UInt8} (hrow : row.toNat < b.matrixRows)
    (hcol : col.toNat < b.matrixCols) :
    entryNumber b { col, row } = row.toNat * b.matrixCols + col.toNat ∧
      (row.toNat * b.matrixCols + col.toNat) / 8 < (b.matrixRows * b.matrixCols + 7) / 8 := by
  have hbyte := UInt8.toNat_lt row
  have hrows : row.toNat * b.matrixCols ≤ 255 * 32 := Nat.mul_le_mul (by omega) b.cols_le
  have hlast : (row.toNat + 1) * b.matrixCols ≤ b.matrixRows * b.matrixCols :=
    Nat.mul_le_mul_right _ hrow
  rw [Nat.succ_mul] at hlast
  have hcols := b.cols_le
  constructor
  · unfold entryNumber
    dsimp only
    omega
  · omega

/-- The positions of an encoder are not in Vial's row, and are those of the second table. -/
theorem pos_encoder (index : UInt8) (clockwise : Bool) :
    (Source.encoder index clockwise).pos.row ≠ vialMatrixMagic ∧
      ((Source.encoder index clockwise).pos.row = keylocEncoderCw ∨
        (Source.encoder index clockwise).pos.row = keylocEncoderCcw) := by
  cases clockwise with
  | false => exact ⟨(by decide : keylocEncoderCcw ≠ vialMatrixMagic), .inr rfl⟩
  | true => exact ⟨(by decide : keylocEncoderCw ≠ vialMatrixMagic), .inl rfl⟩

theorem updateSourceLayersCache_key (s : Caches b) (key : KeyPos) (layer : UInt8)
    (hmagic : ¬ (b.vialEnable ∧ key.row = vialMatrixMagic))
    (hin : key.row.toNat < b.matrixRows ∧ key.col.toNat < b.matrixCols) :
    updateSourceLayersCache s key layer =
      (updateSourceLayersCacheImpl layer (entryNumber b key) s.sourceLayersCache).map
        fun cache => { s with sourceLayersCache := cache } := by
  unfold updateSourceLayersCache
  rw [if_neg hmagic, if_pos hin, Option.map_eq_bind]
  rfl

theorem updateSourceLayersCache_encoder (s : Caches b) {key : KeyPos} (layer : UInt8)
    (hmagic : key.row ≠ vialMatrixMagic)
    (hout : ¬ (key.row.toNat < b.matrixRows ∧ key.col.toNat < b.matrixCols))
    (hrow : b.encoderMapEnable ∧ (key.row = keylocEncoderCw ∨ key.row = keylocEncoderCcw)) :
    updateSourceLayersCache s key layer =
      (updateSourceLayersCacheImpl layer key.col.toNat s.encoderSourceLayersCache).map
        fun cache => { s with encoderSourceLayersCache := cache } := by
  unfold updateSourceLayersCache
  rw [if_neg fun h => hmagic h.2, if_neg hout, if_pos hrow, Option.map_eq_bind]
  rfl

theorem readSourceLayersCache_key (s : Caches b) (key : KeyPos)
    (hmagic : ¬ (b.vialEnable ∧ key.row = vialMatrixMagic))
    (hin : key.row.toNat < b.matrixRows ∧ key.col.toNat < b.matrixCols) :
    readSourceLayersCache s key =
      readSourceLayersCacheImpl (entryNumber b key) s.sourceLayersCache := by
  unfold readSourceLayersCache
  rw [if_neg hmagic, if_pos hin]

theorem readSourceLayersCache_encoder (s : Caches b) {key : KeyPos}
    (hmagic : key.row ≠ vialMatrixMagic)
    (hout : ¬ (key.row.toNat < b.matrixRows ∧ key.col.toNat < b.matrixCols))
    (hrow : b.encoderMapEnable ∧ (key.row = keylocEncoderCw ∨ key.row = keylocEncoderCcw)) :
    readSourceLayersCache s key =
      readSourceLayersCacheImpl key.col.toNat s.encoderSourceLayersCache := by
  unfold readSourceLayersCache
  rw [if_neg fun h => hmagic h.2, if_neg hout, if_pos hrow]

/-- An update sets the layer of its source, and of no other one. -/
theorem updateSourceLayersCache_spec (s : Caches b) {source : Source} (layer : UInt8)
    (hin : source.InRange b) (hoff : source.OffReserved b) :
    ∃ s', updateSourceLayersCache s source.pos layer = some s' ∧
      ∀ other : Source, other.InRange b → ∀ k < b.maxLayerBits,
        s'.bitAt other.entry k =
          if other.entry = source.entry then layer.toNat.testBit k else s.bitAt other.entry k := by
  have hbits : b.maxLayerBits ≤ 8 := le_trans b.maxLayerBits_le (by decide)
  cases source with
  | key row col =>
    obtain ⟨hnumber, hplace⟩ := entryNumber_eq hin.1 hin.2
    obtain ⟨c, hc, hset⟩ := updateSourceLayersCacheImpl_spec s.sourceLayersCache layer hplace hbits
    refine ⟨{ s with sourceLayersCache := c }, ?_, ?_⟩
    · rw [updateSourceLayersCache_key s (Source.key row col).pos layer hoff hin]
      exact congrArg (Option.map _)
        ((congrArg (updateSourceLayersCacheImpl layer · _) hnumber).trans hc)
    intro other hother k hk
    cases other with
    | key row' col' =>
      simp only [Caches.bitAt, Source.entry, hset, hk, and_true, Entry.key.injEq]
      have hsame : row'.toNat * b.matrixCols + col'.toNat = row.toNat * b.matrixCols + col.toNat ↔
          row' = row ∧ col' = col := by
        refine ⟨keyNumber_inj hin.2 hother.2, ?_⟩
        rintro ⟨rfl, rfl⟩
        rfl
      simp only [hsame]
    | encoder index clockwise => simp [Caches.bitAt, Source.entry]
  | encoder index clockwise =>
    have hplace : index.toNat / 8 < (b.numEncoders + 7) / 8 := by
      have := hin.2
      omega
    obtain ⟨c, hc, hset⟩ :=
      updateSourceLayersCacheImpl_spec s.encoderSourceLayersCache layer hplace hbits
    refine ⟨{ s with encoderSourceLayersCache := c }, ?_, ?_⟩
    · obtain ⟨hmagic, hrow⟩ := pos_encoder index clockwise
      rw [updateSourceLayersCache_encoder s layer hmagic hoff ⟨hin.1, hrow⟩]
      exact congrArg (Option.map _) hc
    intro other hother k hk
    cases other with
    | key row' col' => simp [Caches.bitAt, Source.entry]
    | encoder index' clockwise' =>
      simp only [Caches.bitAt, Source.entry, hset, hk, and_true, Entry.encoder.injEq,
        UInt8.toNat_inj]

/-- The layer of a source is read from tables that represent the map. -/
theorem readSourceLayersCache_eq {s : Caches b} {layers : LayerMap} (h : Represents s layers)
    {source : Source} (hin : source.InRange b) (hoff : source.OffReserved b) :
    readSourceLayersCache s source.pos = some (layers source.entry) := by
  have hbits : b.maxLayerBits ≤ 8 := le_trans b.maxLayerBits_le (by decide)
  have hentry := h.bits source hin
  cases source with
  | key row col =>
    obtain ⟨hnumber, hplace⟩ := entryNumber_eq hin.1 hin.2
    rw [readSourceLayersCache_key s (Source.key row col).pos hoff hin]
    exact (congrArg (readSourceLayersCacheImpl · _) hnumber).trans
      (readSourceLayersCacheImpl_eq hplace hbits (h.fits _) hentry)
  | encoder index clockwise =>
    have hplace : index.toNat / 8 < (b.numEncoders + 7) / 8 := by
      have := hin.2
      omega
    obtain ⟨hmagic, hrow⟩ := pos_encoder index clockwise
    rw [readSourceLayersCache_encoder s hmagic hoff ⟨hin.1, hrow⟩]
    exact readSourceLayersCacheImpl_eq hplace hbits (h.fits _) hentry

/-- The tables at the start have layer zero everywhere. -/
theorem represents_init (b : Build) : Represents (Caches.init b) fun _ => 0 where
  bits := by
    intro source hin k hk
    have hzero : ∀ (slots n : ℕ),
        Cache.bitAt (fun (_ : Fin slots) (_ : Fin b.maxLayerBits) => (0 : UInt8)) n k = false := by
      intro slots n
      unfold Cache.bitAt Cache.load
      by_cases hplace : n / 8 < slots ∧ k < b.maxLayerBits <;> simp [hplace]
    cases source with
    | key row col => simp [Caches.bitAt, Source.entry, Caches.init, hzero]
    | encoder index clockwise => simp [Caches.bitAt, Source.entry, Caches.init, hzero]
  fits := fun _ => Nat.two_pow_pos _

/-- An update of the tables is the update of the map. -/
theorem Represents.update {s : Caches b} {layers : LayerMap} (h : Represents s layers)
    {source : Source} {layer : UInt8} (hin : source.InRange b) (hoff : source.OffReserved b)
    (hlayer : layer.toNat < 2 ^ b.maxLayerBits) :
    ∃ s', updateSourceLayersCache s source.pos layer = some s' ∧
      Represents s' (Function.update layers source.entry layer) := by
  obtain ⟨s', hs', hset⟩ := updateSourceLayersCache_spec s layer hin hoff
  refine ⟨s', hs', ?_, ?_⟩
  · intro other hother k hk
    rw [hset other hother k hk, Function.update_apply]
    split_ifs with hsame
    · rfl
    · exact h.bits other hother k hk
  · intro entry
    rw [Function.update_apply]
    split_ifs with hsame
    · exact hlayer
    · exact h.fits entry

/-- The calls the cache is made for: updates of sources off the reserved positions, with
layers that fit in the planes. -/
structure Update.Regular (b : Build) (u : Update) : Prop where
  inRange : u.source.InRange b
  offReserved : u.source.OffReserved b
  fits : u.layer.toNat < 2 ^ b.maxLayerBits

/-- A run of updates in the tables is the run in the map. -/
theorem Represents.runUpdates {s : Caches b} {layers : LayerMap} (h : Represents s layers)
    {updates : List Update} (hregular : ∀ u ∈ updates, u.Regular b) :
    ∃ s', runUpdates updates s = some s' ∧
      Represents s' (updates.foldl
        (fun layers u => Function.update layers u.source.entry u.layer) layers) := by
  induction updates generalizing s layers with
  | nil => exact ⟨s, rfl, h⟩
  | cons u updates ih =>
    have hu := hregular u List.mem_cons_self
    obtain ⟨s₁, hs₁, h₁⟩ := h.update hu.inRange hu.offReserved hu.fits
    obtain ⟨s', hs', h'⟩ := ih h₁ fun v hv => hregular v (List.mem_cons_of_mem u hv)
    refine ⟨s', ?_, h'⟩
    simp only [SourceCache.runUpdates, List.foldlM_cons, hs₁, Option.bind_eq_bind,
      Option.bind_some]
    exact hs'

/-- What the cache promises after some updates: they were in range, each source is read as
the layer last stored for it, and a further update changes no other entry. -/
def RefinesAfter (b : Build) (good : Source → Prop) (updates : List Update) : Prop :=
  ∃ s, runUpdates updates (Caches.init b) = some s ∧
    (∀ source, source.InRange b → good source →
      readSourceLayersCache s source.pos = some (lastStored updates source.entry)) ∧
    ∀ u : Update, u.source.InRange b → good u.source → u.layer.toNat < 2 ^ b.maxLayerBits →
      ∃ s', updateSourceLayersCache s u.source.pos u.layer = some s' ∧
        ∀ source, source.InRange b → good source → source.entry ≠ u.source.entry →
          readSourceLayersCache s' source.pos = readSourceLayersCache s source.pos

/-- The tables refine a map from entries to layers, for sources off the reserved
positions. -/
theorem refinesLayerMap (b : Build) (updates : List Update)
    (hregular : ∀ u ∈ updates, u.Regular b) :
    RefinesAfter b (Source.OffReserved b) updates := by
  obtain ⟨s, hs, h⟩ := (represents_init b).runUpdates hregular
  refine ⟨s, hs, fun source hin hoff => readSourceLayersCache_eq h hin hoff, ?_⟩
  intro u hin hoff hlayer
  obtain ⟨s', hs', h'⟩ := h.update hin hoff hlayer
  refine ⟨s', hs', ?_⟩
  intro source hsource hsourceOff hne
  rw [readSourceLayersCache_eq h' hsource hsourceOff,
    readSourceLayersCache_eq h hsource hsourceOff, Function.update_of_ne hne]

/-- A Vial build of three columns with two encoders and four layers. -/
def macropad (rows : ℕ) : Build where
  matrixRows := rows
  matrixCols := 3
  numEncoders := 2
  encoderMapEnable := true
  vialEnable := true
  dynamicKeymapLayerCount := some 4
  layerState8Bit := false
  layerState16Bit := false
  layerState32Bit := false
  cols_le := by decide

theorem refinesLayerMap_macropad :
    RefinesAfter (macropad 4) (Source.OffReserved (macropad 4))
      [⟨.key 3 2, 3⟩, ⟨.encoder 1 true, 2⟩] := by
  apply refinesLayerMap
  intro u hu
  simp only [List.mem_cons, List.not_mem_nil, or_false] at hu
  rcases hu with rfl | rfl
  · exact ⟨by unfold Source.InRange; decide, by unfold Source.OffReserved; decide, by decide⟩
  · exact ⟨by unfold Source.InRange; decide, by unfold Source.OffReserved; decide, by decide⟩

/-- In a matrix of 241 rows, the last one is the row of Vial's own events, and its keys have
no entry. -/
theorem not_refinesLayerMap_lastRow :
    ¬ ∀ (b : Build) (updates : List Update),
      (∀ u ∈ updates, u.source.InRange b ∧ u.layer.toNat < 2 ^ b.maxLayerBits) →
        RefinesAfter b (fun _ => True) updates := by
  intro h
  have hin : (Source.key 240 0).InRange (macropad 241) := by
    unfold Source.InRange
    decide
  obtain ⟨s, -, hread, -⟩ := h (macropad 241) [⟨.key 240 0, 1⟩] (by
    intro u hu
    rw [List.mem_singleton] at hu
    subst hu
    exact ⟨hin, by decide⟩)
  have hlast : lastStored [⟨.key 240 0, 1⟩] (Source.key 240 0).entry = 1 := by decide
  have hzero : readSourceLayersCache s (Source.key 240 0).pos = some 0 := if_pos ⟨rfl, rfl⟩
  have hone := hread _ hin trivial
  rw [hlast, hzero] at hone
  exact absurd hone (by decide)

end SourceCache
end VialQmk
