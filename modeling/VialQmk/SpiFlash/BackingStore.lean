import VialQmk.Library.Runs
import VialQmk.SpiFlash.Driver

/-!
# SPI flash - the backing store of the wear leveling

The words of the store are kept as their complement, so that an erased word is zero.  The driver
takes the last block of the chip for one behind its end, and no transfer has more than 65535
bytes.

Main results:

- Definitions {lit}`backingStoreErase`, {lit}`backingStoreReadBulk` and
  {lit}`backingStoreWriteBulk`.
- Definition {lit}`Call.Fits`: the calls that stay clear of the last block and of long transfers.
- Theorem {lit}`backingStore`: the store has the words that were written.
-/

namespace VialQmk
namespace SpiFlash

open Function (update)

namespace Config

variable (c : Config)

/-- The first byte of the region. -/
def base : ℕ :=
  c.blockOffset * c.blockSize

/-- The bytes of the region. -/
def regionSize : ℕ :=
  c.blockCount * c.blockSize

/-- {lit}`~value` of a {lit}`backing_store_int_t` -/
def complement (value : ℕ) : ℕ :=
  256 ^ c.writeSize - 1 - value

end Config

/-! ## The store -/

/-- {lit}`backing_store_erase` -/
def backingStoreErase (c : Config) (d : Device) : Device × Bool :=
  (List.range c.blockCount).foldl
    (fun (r : Device × Bool) i =>
      if r.2 then
        let e := flashEraseBlock c ((c.blockOffset + i) * c.blockSize) r.1
        (e.1, e.2 = .success)
      else r)
    (d, true)

/-- {lit}`backing_store_read_bulk` into the words of a buffer -/
def backingStoreReadBulk (c : Config) (address : ℕ) (values : Memory UInt8) (itemCount : ℕ)
    (d : Device) : List ℕ × Bool :=
  let offset := c.blockOffset * c.blockSize + address
  let r := flashReadBlock c offset values (c.writeSize * itemCount) d
  let words := (List.range itemCount).map fun i =>
    LittleEndian.value (r.1.load (c.writeSize * i) c.writeSize)
  if r.2 = .success then (words.map c.complement, true) else (words, false)

/-- {lit}`backing_store_read` -/
def backingStoreRead (c : Config) (address : ℕ) (value : Memory UInt8) (d : Device) :
    List ℕ × Bool :=
  backingStoreReadBulk c address value 1 d

/-- The batches of {lit}`backing_store_write_bulk`, for a number of rounds -/
def writeBulkLoop (c : Config) : ℕ → ℕ → List ℕ → Device → Device × Bool
  | 0, _, _, d => (d, false)
  | n + 1, offset, values, d =>
    let thisLoop := min values.length c.bulkCount
    -- Take the complement instead
    let temp := (values.take thisLoop).map c.complement
    match flashWriteBlock c offset (temp.flatMap (LittleEndian.bytes c.writeSize)) d with
    | (d, .error) => (d, false)
    | (d, .success) =>
      let rest := values.drop thisLoop
      if rest = [] then (d, true)
      else writeBulkLoop c n (offset + thisLoop * c.writeSize) rest d

/-- {lit}`backing_store_write_bulk`: each round but a last one writes a word at least. -/
def backingStoreWriteBulk (c : Config) (address : ℕ) (values : List ℕ) (d : Device) :
    Device × Bool :=
  writeBulkLoop c (values.length + 1) (c.blockOffset * c.blockSize + address) values d

/-- {lit}`backing_store_write` -/
def backingStoreWrite (c : Config) (address value : ℕ) (d : Device) : Device × Bool :=
  backingStoreWriteBulk c address [value] d

/-! ## Words -/

variable {c : Config}

theorem Config.complement_complement {value : ℕ} (h : value < 256 ^ c.writeSize) :
    c.complement (c.complement value) = value := by
  unfold complement
  omega

theorem Config.complement_lt (value : ℕ) : c.complement value < 256 ^ c.writeSize := by
  have hpos : 0 < 256 ^ c.writeSize := Nat.pow_pos (by decide)
  unfold complement
  omega

theorem Config.writeSize_pos (c : Config) : 0 < c.writeSize := by
  have h := c.writeSize_eq
  omega

/-- The bytes of a word as they are in the flash. -/
def stored (c : Config) (value : ℕ) : List UInt8 :=
  LittleEndian.bytes c.writeSize (c.complement value)

@[simp]
theorem length_stored (value : ℕ) : (stored c value).length = c.writeSize :=
  LittleEndian.length_bytes _ _

theorem bytes_max (k : ℕ) : LittleEndian.bytes k (256 ^ k - 1) = List.replicate k 0xFF := by
  induction k with
  | zero => rfl
  | succ k ih =>
    have hpos : 0 < 256 ^ k := Nat.pow_pos (by decide)
    have hlow : (256 ^ (k + 1) - 1).toUInt8 = 0xFF := by
      apply UInt8.toNat_inj.mp
      rw [Nat.toUInt8, UInt8.toNat_ofNat', Nat.pow_succ]
      simp
      omega
    have hhigh : (256 ^ (k + 1) - 1) / 256 = 256 ^ k - 1 := by
      rw [Nat.pow_succ]
      omega
    rw [LittleEndian.bytes, hlow, hhigh, ih, List.replicate_succ]

/-- A word of zero is erased. -/
theorem stored_zero (c : Config) : stored c 0 = List.replicate c.writeSize 0xFF := by
  rw [stored, Config.complement, Nat.sub_zero, bytes_max]

/-- The words of the region. -/
def Holds (c : Config) (memory : Memory UInt8) (words : Memory ℕ) : Prop :=
  ∀ w, c.writeSize * (w + 1) ≤ c.regionSize →
    words w < 256 ^ c.writeSize ∧
      memory.load (c.base + c.writeSize * w) c.writeSize = stored c (words w)

/-- A program of erased cells stores the bytes. -/
theorem merge_erased {memory : Memory UInt8} {a : ℕ} {bytes : List UInt8}
    (h : memory.load a bytes.length = List.replicate bytes.length 0xFF) :
    memory.merge (· &&& ·) a bytes = memory.store a bytes := by
  funext i
  rcases Nat.lt_or_ge i a with hlt | hge
  · rw [Memory.merge_of_lt _ hlt, Memory.store_of_lt hlt]
  · rcases Nat.lt_or_ge (i - a) bytes.length with hin | hout
    · have hget := Memory.load_getElem? memory (a := a) hin
      rw [h, List.getElem?_replicate, if_pos hin, Nat.add_sub_cancel' hge] at hget
      have hand : ∀ x : UInt8, 0xFF &&& x = x := by
        intro x
        apply UInt8.toBitVec_inj.mp
        exact BitVec.allOnes_and
      rw [Memory.merge_of_mem _ hge hin, Memory.store_of_mem hge hin, ← Option.some.inj hget,
        hand]
    · rw [Memory.merge_of_ge _ (by omega), Memory.store_of_ge (by omega)]

/-- A word is written where the store has none. -/
theorem Holds.write {memory : Memory UInt8} {words : Memory ℕ} (h : Holds c memory words)
    {index value : ℕ} (hregion : c.writeSize * (index + 1) ≤ c.regionSize)
    (hzero : words index = 0) (hvalue : value < 256 ^ c.writeSize) :
    Holds c (memory.merge (· &&& ·) (c.base + c.writeSize * index) (stored c value))
      (update words index value) := by
  have herased := (h index hregion).2
  rw [hzero, stored_zero] at herased
  rw [merge_erased (by rw [length_stored]; exact herased)]
  intro w hw
  by_cases heq : w = index
  · subst heq
    rw [Function.update_self]
    refine ⟨hvalue, ?_⟩
    have hload := Memory.load_store_same memory (c.base + c.writeSize * w) (stored c value)
    rwa [length_stored] at hload
  · rw [Function.update_of_ne heq]
    refine ⟨(h w hw).1, ?_⟩
    rw [Memory.load_store_disjoint, (h w hw).2]
    rw [length_stored]
    rcases Nat.lt_or_gt_of_ne heq with hlt | hgt
    · left
      have hmul := Nat.mul_le_mul_left c.writeSize (show w + 1 ≤ index from hlt)
      rw [Nat.mul_succ] at hmul
      omega
    · right
      have hmul := Nat.mul_le_mul_left c.writeSize (show index + 1 ≤ w from hgt)
      rw [Nat.mul_succ] at hmul
      omega

/-- A block of words is written where the store has none. -/
theorem Holds.writeAll {memory : Memory UInt8} {words : Memory ℕ} (h : Holds c memory words)
    {index : ℕ} {values : List ℕ} (hregion : c.writeSize * (index + values.length) ≤ c.regionSize)
    (hzero : ∀ k < values.length, words (index + k) = 0)
    (hvalues : ∀ value ∈ values, value < 256 ^ c.writeSize) :
    Holds c (memory.merge (· &&& ·) (c.base + c.writeSize * index) (values.flatMap (stored c)))
      (words.store index values) := by
  induction values generalizing memory words index with
  | nil => simpa using h
  | cons value values ih =>
    have hmul := Nat.mul_le_mul_left c.writeSize
      (show index + 1 ≤ index + (value :: values).length by simp)
    have hfirst := h.write (Nat.le_trans hmul hregion) (hzero 0 (by simp))
      (hvalues value List.mem_cons_self)
    have hstore : words.store index (value :: values) =
        Memory.store (update words index value) (index + 1) values := by
      rw [← Memory.merge_eq_store, Memory.merge_cons, Memory.merge_eq_store]
    rw [List.flatMap_cons, Memory.merge_append, length_stored, Nat.add_assoc, ← Nat.mul_succ,
      hstore]
    apply ih hfirst
    · rw [List.length_cons] at hregion
      rwa [Nat.succ_eq_add_one, Nat.add_assoc, Nat.add_comm 1]
    · intro k hk
      rw [Function.update_of_ne (by omega)]
      have hnext := hzero (k + 1) (by simpa using hk)
      rwa [← Nat.add_assoc, Nat.add_right_comm] at hnext
    · exact fun v hv => hvalues v (List.mem_cons_of_mem value hv)

/-! ## The functions of the store -/

theorem length_flatMap_stored (values : List ℕ) :
    (values.flatMap (stored c)).length = c.writeSize * values.length := by
  induction values with
  | nil => rfl
  | cons value values ih =>
    rw [List.flatMap_cons, List.length_append, ih, length_stored, List.length_cons, Nat.mul_succ,
      Nat.add_comm]

/-- The loop over the batches. -/
theorem writeBulkLoop_eq {n offset : ℕ} (values : List ℕ) (d : Device) (hn : values.length < n)
    (hfits : offset + c.writeSize * values.length ≤ c.flashSize)
    (hlen : min c.pageSize (c.writeSize * min values.length c.bulkCount) < 65536) :
    ∃ d', writeBulkLoop c n offset values d = (d', true) ∧
      d'.memory = d.memory.merge (· &&& ·) offset (values.flatMap (stored c)) := by
  induction n generalizing offset values d with
  | zero => omega
  | succ n ih =>
    obtain ⟨thisLoop, hloop⟩ : ∃ thisLoop, thisLoop = min values.length c.bulkCount := ⟨_, rfl⟩
    have htake : (values.take thisLoop).length = thisLoop := by
      rw [List.length_take]
      omega
    have hbytes : ((values.take thisLoop).map c.complement).flatMap
        (LittleEndian.bytes c.writeSize) = (values.take thisLoop).flatMap (stored c) :=
      List.flatMap_map _ _ _
    have hle := Nat.mul_le_mul_left c.writeSize (show thisLoop ≤ values.length by omega)
    have hlength := length_flatMap_stored (c := c) (values.take thisLoop)
    rw [htake] at hlength
    rcases @flashWriteBlock_eq c offset ((values.take thisLoop).flatMap (stored c)) d
      (by rw [hlength]; omega) (by rwa [hlength, hloop]) with ⟨d', hd', hmemory⟩
    rw [writeBulkLoop]
    dsimp only
    rw [← hloop, hbytes, hd']
    dsimp only
    by_cases hrest : values.drop thisLoop = []
    · rw [if_pos hrest]
      refine ⟨d', rfl, ?_⟩
      have hall : values.take thisLoop = values := by
        conv_rhs => rw [← List.take_append_drop thisLoop values, hrest, List.append_nil]
      rw [hmemory, hall]
    · rw [if_neg hrest]
      have hdrop : (values.drop thisLoop).length = values.length - thisLoop := List.length_drop
      have hpos := List.length_pos_iff.mpr hrest
      have hbulk := c.bulkCount_pos
      have hmul : c.writeSize * (values.length - thisLoop) =
          c.writeSize * values.length - c.writeSize * thisLoop := Nat.mul_sub _ _ _
      have hmono : c.writeSize * min (values.length - thisLoop) c.bulkCount ≤
          c.writeSize * min values.length c.bulkCount :=
        Nat.mul_le_mul_left _ (by omega)
      rcases @ih (offset + thisLoop * c.writeSize) (values.drop thisLoop) d' (by omega)
        (by rw [hdrop, hmul, Nat.mul_comm thisLoop]; omega) (by rw [hdrop]; omega) with
        ⟨d'', hd'', hmemory'⟩
      refine ⟨d'', hd'', ?_⟩
      have hsplit := Memory.merge_append (· &&& ·) d.memory offset
        ((values.take thisLoop).flatMap (stored c)) ((values.drop thisLoop).flatMap (stored c))
      rw [← List.flatMap_append, List.take_append_drop, hlength] at hsplit
      rw [hmemory', hmemory, hsplit, Nat.mul_comm thisLoop]

/-- The region ends inside the chip. -/
theorem Config.base_add_regionSize (c : Config) : c.base + c.regionSize ≤ c.flashSize := by
  have h := c.region_fits
  rwa [Nat.add_mul] at h

/-- The blocks that the loop of {lit}`backing_store_erase` has erased. -/
theorem eraseBlocks (d : Device) {n : ℕ} (hn : n ≤ c.blockCount)
    (hlast : n = 0 ∨ (c.blockOffset + n) * c.blockSize < c.flashSize) :
    ∃ d', (List.range n).foldl
        (fun (r : Device × Bool) i =>
          if r.2 then
            let e := flashEraseBlock c ((c.blockOffset + i) * c.blockSize) r.1
            (e.1, e.2 = .success)
          else r)
        (d, true) = (d', true) ∧
      (∀ i, c.base ≤ i → i < c.base + n * c.blockSize → d'.memory i = 0xFF) ∧
      ∀ i, i < c.base ∨ c.base + n * c.blockSize ≤ i → d'.memory i = d.memory i := by
  induction n with
  | zero => exact ⟨d, rfl, fun i hle hlt => by omega, fun _ _ => rfl⟩
  | succ n ih =>
    have hsize := c.blockSize_pos
    have hsucc : (c.blockOffset + (n + 1)) * c.blockSize =
        (c.blockOffset + n) * c.blockSize + c.blockSize := Nat.succ_mul _ _
    have hsum : (c.blockOffset + n) * c.blockSize = c.base + n * c.blockSize := Nat.add_mul _ _ _
    have hmul : (n + 1) * c.blockSize = n * c.blockSize + c.blockSize := Nat.succ_mul _ _
    rcases ih (by omega) (by omega) with ⟨d', hd', herased, hrest⟩
    have hblock := @flashEraseBlock_eq c ((c.blockOffset + n) * c.blockSize) d' (by omega)
      (Nat.mul_mod_left _ _)
    rw [List.range_succ, List.foldl_append, hd', List.foldl_cons, List.foldl_nil]
    dsimp only
    rw [if_pos rfl, hblock]
    refine ⟨_, rfl, ?_, ?_⟩
    · intro i hle hlt
      dsimp only
      rw [hsum]
      by_cases hin : c.base + n * c.blockSize ≤ i
      · exact Memory.fill_of_mem hin (by omega)
      · rw [Memory.fill_of_not_mem (by omega)]
        exact herased i hle (by omega)
    · intro i hi
      dsimp only
      rw [hsum, Memory.fill_of_not_mem (by omega)]
      exact hrest i (by omega)

/-- A word of the region inside a read of several. -/
theorem load_store_load (buf memory : Memory UInt8) {a n k i : ℕ} (h : i + k ≤ n) :
    (buf.store 0 (memory.load a n)).load i k = memory.load (a + i) k := by
  apply List.ext_getElem (by simp)
  intro j hj _
  rw [Memory.load_length] at hj
  rw [Memory.load_getElem, Memory.load_getElem,
    Memory.store_of_mem (Nat.zero_le _) (by rw [Memory.load_length]; omega), Memory.load_getElem]
  congr 1
  omega

/-- {lit}`backing_store_read_bulk`, of less than 65536 bytes -/
theorem backingStoreReadBulk_eq {words : Memory ℕ} {d : Device} (h : Holds c d.memory words)
    (buf : Memory UInt8) {index count : ℕ} (hindex : c.writeSize * index < c.regionSize)
    (hregion : c.writeSize * (index + count) ≤ c.regionSize) (hlen : c.writeSize * count < 65536) :
    backingStoreReadBulk c (c.writeSize * index) buf count d = (words.load index count, true) := by
  have hfits := c.base_add_regionSize
  have hread := @flashReadBlock_eq c (c.base + c.writeSize * index) _ buf d (by omega) hlen
  unfold backingStoreReadBulk
  dsimp only
  rw [← Config.base, hread]
  dsimp only
  rw [if_pos rfl, List.map_map]
  congr 1
  apply List.map_congr_left
  intro i hi
  have hlt := List.mem_range.mp hi
  have hmul := Nat.mul_le_mul_left c.writeSize (show i + 1 ≤ count from hlt)
  have hword := h (index + i) (Nat.le_trans (Nat.mul_le_mul_left _ (by omega)) hregion)
  rw [Nat.mul_succ] at hmul
  rw [Nat.mul_add, ← Nat.add_assoc] at hword
  rw [Function.comp_apply, load_store_load _ _ hmul, hword.2, stored,
    LittleEndian.value_bytes (Config.complement_lt _), Config.complement_complement hword.1]

/-! ## Runs -/

/-- A call of the store, with the number of a word in the region for its address. -/
inductive Call
  | erase
  | write (index value : ℕ)
  | writeBulk (index : ℕ) (values : List ℕ)
  | read (index count : ℕ)

namespace Call

/-- The words that a call writes. -/
def written : Call → List ℕ
  | write _ value => [value]
  | writeBulk _ values => values
  | _ => []

/-- The call on the driver. -/
def run (c : Config) (d : Device) : Call → Device × Bool
  | erase => backingStoreErase c d
  | write index value => backingStoreWrite c (c.writeSize * index) value d
  | writeBulk index values => backingStoreWriteBulk c (c.writeSize * index) values d
  | read index count =>
    (d, (backingStoreReadBulk c (c.writeSize * index) (fun _ => 0) count d).2)

/-- The call on the words. -/
def apply (words : Memory ℕ) : Call → Memory ℕ
  | erase => fun _ => 0
  | write index value => words.store index [value]
  | writeBulk index values => words.store index values
  | read _ _ => words

/-- The words of a block are in the region, they are erased when it is written, and the values
are those of a {lit}`backing_store_int_t`. -/
def InRange (c : Config) (words : Memory ℕ) : Call → Prop
  | erase => True
  | write index value => c.writeSize * (index + 1) ≤ c.regionSize ∧ words index = 0 ∧
    value < 256 ^ c.writeSize
  | writeBulk index values => c.writeSize * (index + values.length) ≤ c.regionSize ∧
    (∀ k < values.length, words (index + k) = 0) ∧ ∀ value ∈ values, value < 256 ^ c.writeSize
  | read index count => c.writeSize * index < c.regionSize ∧
    c.writeSize * (index + count) ≤ c.regionSize

/-- The region that is erased ends before the last block of the chip, and no transfer has more
than 65535 bytes. -/
def Fits (c : Config) : Call → Prop
  | erase => c.blockCount = 0 ∨ (c.blockOffset + c.blockCount) * c.blockSize < c.flashSize
  | read _ count => c.writeSize * count < 65536
  | call => min c.pageSize (c.writeSize * min call.written.length c.bulkCount) < 65536

end Call

/-- A call on the device and on the words. -/
def step (c : Config) (x : Device × Memory ℕ) (call : Call) : Device × Memory ℕ :=
  ((call.run c x.1).1, call.apply x.2)

/-- The words that the region has. -/
def wordsOf (c : Config) (d : Device) : Memory ℕ := fun w =>
  c.complement (LittleEndian.value (d.memory.load (c.base + c.writeSize * w) c.writeSize))

/-- The call succeeds, every word is read as it should be, a read of several words gives them, and
the rest of the chip is as it was. -/
structure Refines (c : Config) (x : Device × Memory ℕ) (call : Call) : Prop where
  succeeds : (call.run c x.1).2 = true
  word : ∀ w, c.writeSize * (w + 1) ≤ c.regionSize → ∀ value,
    backingStoreRead c (c.writeSize * w) value (step c x call).1 = ([(step c x call).2 w], true)
  read : ∀ index count, call = .read index count → ∀ values,
    backingStoreReadBulk c (c.writeSize * index) values count x.1 =
      (x.2.load index count, true)
  outside : ∀ i, i < c.base ∨ c.base + c.regionSize ≤ i →
    (step c x call).1.memory i = x.1.memory i

theorem holds_wordsOf (c : Config) (d : Device) : Holds c d.memory (wordsOf c d) := by
  intro w _
  refine ⟨Config.complement_lt _, ?_⟩
  have hlt := LittleEndian.value_lt (d.memory.load (c.base + c.writeSize * w) c.writeSize)
  have hbytes := LittleEndian.bytes_value (d.memory.load (c.base + c.writeSize * w) c.writeSize)
  rw [Memory.load_length] at hlt hbytes
  rw [stored, wordsOf, Config.complement_complement hlt, hbytes]

/-- A block of words that is written. -/
theorem writeBulk_eq {d : Device} {words : Memory ℕ} (h : Holds c d.memory words) {index : ℕ}
    {values : List ℕ} (hregion : c.writeSize * (index + values.length) ≤ c.regionSize)
    (hzero : ∀ k < values.length, words (index + k) = 0)
    (hvalues : ∀ value ∈ values, value < 256 ^ c.writeSize)
    (hlen : min c.pageSize (c.writeSize * min values.length c.bulkCount) < 65536) :
    ∃ d', backingStoreWriteBulk c (c.writeSize * index) values d = (d', true) ∧
      Holds c d'.memory (words.store index values) ∧
      ∀ i, i < c.base ∨ c.base + c.regionSize ≤ i → d'.memory i = d.memory i := by
  have hfits := c.base_add_regionSize
  rw [Nat.mul_add] at hregion
  rcases @writeBulkLoop_eq c (values.length + 1) (c.base + c.writeSize * index) values d
    (Nat.lt_succ_self _) (by omega) hlen with ⟨d', hd', hmemory⟩
  refine ⟨d', hd', ?_, ?_⟩
  · rw [hmemory]
    exact h.writeAll (by rwa [Nat.mul_add]) hzero hvalues
  · intro i hi
    rw [hmemory]
    rcases hi with hi | hi
    · exact Memory.merge_of_lt _ (by omega)
    · exact Memory.merge_of_ge _ (by rw [length_flatMap_stored]; omega)

/-- What a call does. -/
theorem Call.run_eq {d : Device} {words : Memory ℕ} (h : Holds c d.memory words) (call : Call)
    (hrange : call.InRange c words) (hfits : call.Fits c) :
    (call.run c d).2 = true ∧ Holds c (call.run c d).1.memory (call.apply words) ∧
      ∀ i, i < c.base ∨ c.base + c.regionSize ≤ i →
        (call.run c d).1.memory i = d.memory i := by
  cases call with
  | erase =>
    rcases eraseBlocks d (Nat.le_refl c.blockCount) hfits with ⟨d', hd', herased, hrest⟩
    have hrun : backingStoreErase c d = (d', true) := hd'
    rw [Call.run, hrun]
    refine ⟨rfl, ?_, hrest⟩
    intro w hw
    rw [Nat.mul_succ] at hw
    refine ⟨Nat.pow_pos (by decide), ?_⟩
    rw [Call.apply, stored_zero]
    apply List.ext_getElem (by simp)
    intro i hi _
    rw [Memory.load_length] at hi
    rw [Memory.load_getElem, List.getElem_replicate]
    exact herased _ (by omega) (by rw [Config.regionSize] at hw; omega)
  | write index value =>
    have hzero : ∀ k < [value].length, words (index + k) = 0 := by
      intro k hk
      rw [List.length_singleton, Nat.lt_one_iff] at hk
      rw [hk]
      exact hrange.2.1
    have hvalues : ∀ v ∈ [value], v < 256 ^ c.writeSize := by
      intro v hv
      rw [List.mem_singleton.mp hv]
      exact hrange.2.2
    rcases writeBulk_eq h hrange.1 hzero hvalues hfits with ⟨d', hd', hholds, hrest⟩
    have hrun : backingStoreWrite c (c.writeSize * index) value d = (d', true) := hd'
    rw [Call.run, hrun]
    exact ⟨rfl, hholds, hrest⟩
  | writeBulk index values =>
    rcases writeBulk_eq h hrange.1 hrange.2.1 hrange.2.2 hfits with ⟨d', hd', hholds, hrest⟩
    rw [Call.run, hd']
    exact ⟨rfl, hholds, hrest⟩
  | read index count =>
    have hread := backingStoreReadBulk_eq h (fun _ => 0) hrange.1 hrange.2 hfits
    refine ⟨?_, h, fun _ _ => rfl⟩
    rw [Call.run, hread]

/-- A call in range that fits. -/
theorem refines_step (x : Device × Memory ℕ) (call : Call) (h : Holds c x.1.memory x.2)
    (hrange : call.InRange c x.2) (hfits : call.Fits c) :
    Refines c x call ∧ Holds c (step c x call).1.memory (step c x call).2 := by
  rcases call.run_eq h hrange hfits with ⟨hsucceeds, hholds, hrest⟩
  refine ⟨⟨hsucceeds, ?_, ?_, hrest⟩, hholds⟩
  · intro w hw value
    have hsize := c.writeSize_eq
    have hread := backingStoreReadBulk_eq (c := c) hholds value
      (by rw [Nat.mul_succ] at hw; omega) hw (by omega)
    exact hread
  · rintro index count rfl values
    exact backingStoreReadBulk_eq h values hrange.1 hrange.2 hfits

/-- Along every sequence of calls in range that stay clear of the last block of the chip and of
long transfers, the store has the words that were written and the rest of the chip is as it
was. -/
theorem backingStore (c : Config) (d : Device) (calls : List Call)
    (hrange : StateMachine.Along (step c) (fun x call => call.InRange c x.2)
      (d, wordsOf c d) calls)
    (hfits : ∀ call ∈ calls, call.Fits c) :
    StateMachine.Along (step c) (Refines c) (d, wordsOf c d) calls := by
  have hall := hrange.and (StateMachine.along_of_forall fun call hcall _ => hfits call hcall)
  apply StateMachine.along_of_invariant (fun x => Holds c x.1.memory x.2) _ _
    (holds_wordsOf c d) hall
  · intro x call h hcall
    exact (refines_step x call h hcall.1 hcall.2).2
  · intro x call h hcall
    exact (refines_step x call h hcall.1 hcall.2).1

/-! ## A chip of two blocks -/

/-- One of the two blocks of a chip with pages of 4 bytes. -/
def twoBlocks (blockOffset : Fin 2) : Config where
  flashSize := 2 ^ 5
  blockSize := 2 ^ 4
  pageSize := 2 ^ 2
  addressSize := 1
  blockOffset := blockOffset
  blockCount := 1
  bulkCount := 2
  writeSize := 2 ^ 1
  pageSize_pos := by decide
  blockSize_pos := by decide
  page_dvd := by decide
  block_dvd := by decide
  address_fits := by decide
  address_width := by decide
  region_fits := by omega
  bulkCount_pos := Nat.zero_lt_two
  writeSize_eq := by decide

/-- Three words over two pages, in two batches. -/
theorem backingStore_twoBlocks :
    StateMachine.Along (step (twoBlocks 0)) (Refines (twoBlocks 0))
      (⟨fun _ => 0x5A, false⟩, wordsOf (twoBlocks 0) ⟨fun _ => 0x5A, false⟩)
      [.erase, .writeBulk 1 [0x1234, 0, 0xFFFF], .write 7 0x80, .read 1 4] := by
  apply backingStore
  · refine ⟨trivial, ⟨by decide, fun _ _ => rfl, by decide⟩, ⟨by decide, rfl, by decide⟩,
      ⟨by decide, by decide⟩, trivial⟩
  · intro call hcall
    simp only [List.mem_cons, List.not_mem_nil, or_false] at hcall
    rcases hcall with rfl | rfl | rfl | rfl
    · right
      decide
    · change 4 < 65536
      decide
    · change 2 < 65536
      decide
    · change 8 < 65536
      decide

/-- A region that has the last block of the chip is not erased. -/
theorem not_backingStore_twoBlocks :
    ¬StateMachine.Along (step (twoBlocks 1)) (Refines (twoBlocks 1))
      (⟨fun _ => 0, false⟩, wordsOf (twoBlocks 1) ⟨fun _ => 0, false⟩) [.erase] := by
  rintro ⟨h, -⟩
  exact absurd h.succeeds (by decide)

end SpiFlash
end VialQmk
