import VialQmk.WearLeveling.Consolidation

/-!
# Wear leveling - the contents of the store

A store holds consolidated data, a checksum, and a log of entries that stand back
to back.  Its contents are the consolidated data, or zeros when the checksum does
not match, with the entries applied in order.

Main results:

- Definition {lit}`Entries`: a chain of entries between two addresses of the store.
- Definition {lit}`Stored`: the store holds given logical data and its log ends at a
  given address.
- Theorem {lit}`Entries.congr`: a chain depends only on the bytes it takes.
- Theorem {lit}`stored_consolidatedFlash`: a freshly consolidated store holds the cache.
-/

namespace VialQmk
namespace WearLeveling

/-- The bytes of the store from {lit}`a` on, as a log entry. -/
def entryAt (flash : Memory UInt8) (a : ℕ) : LogEntry :=
  fun i => flash (a + i)

/-- The bytes from {lit}`a` on are the entry {lit}`e`, and the log playback accepts it. -/
structure Holds (c : Config) (flash : Memory UInt8) (a : ℕ) (e : Entry) : Prop where
  notEmpty : ¬ (entryAt flash a).IsEmpty c
  decode : (entryAt flash a).decode c = some e
  short : e.data.length ≤ LogEntry.multibyteMaxBytes
  inRange : e.InRange c

/-- A chain of entries from one address of the store to another. -/
def Entries (c : Config) (flash : Memory UInt8) : ℕ → List Entry → ℕ → Prop
  | a, [], b => a = b
  | a, e :: es, b => Holds c flash a e ∧ Entries c flash (a + e.size) es b

/-- The effect of a chain of entries on the logical data. -/
def applyAll (cache : Memory UInt8) (es : List Entry) : Memory UInt8 :=
  es.foldl Entry.apply cache

@[simp]
theorem applyAll_nil (cache : Memory UInt8) : applyAll cache [] = cache :=
  rfl

@[simp]
theorem applyAll_cons (cache : Memory UInt8) (e : Entry) (es : List Entry) :
    applyAll cache (e :: es) = applyAll (e.apply cache) es :=
  rfl

theorem applyAll_append (cache : Memory UInt8) (es es' : List Entry) :
    applyAll cache (es ++ es') = applyAll (applyAll cache es) es' :=
  List.foldl_append

/-- Entries act on each byte alone. -/
theorem applyAll_congr {cache cache' : Memory UInt8} {i : ℕ} (es : List Entry)
    (h : cache i = cache' i) : applyAll cache es i = applyAll cache' es i := by
  induction es generalizing cache cache' with
  | nil => exact h
  | cons e es ih => exact ih (Memory.store_congr h)

/-! ## Sizes -/

theorem Config.two_le_writeSize (c : Config) : 2 ≤ c.writeSize := by
  have := c.writeSize_eq
  omega

/-- A multibyte entry takes whole words, and at least one. -/
theorem Config.multibyteSize_words (c : Config) (n : ℕ) :
    c.writeSize ∣ c.multibyteSize n ∧ 0 < c.multibyteSize n := by
  rcases c.writeSize_eq with hW | hW | hW <;> simp only [Config.multibyteSize, hW] <;>
    split_ifs <;> omega

/-- An entry takes whole words, and at least one. -/
theorem LogEntry.size_words {c : Config} {log : LogEntry} {e : Entry}
    (h : log.decode c = some e) : c.writeSize ∣ e.size ∧ 0 < e.size := by
  cases ht : log.getType <;> simp only [LogEntry.decode, ht] at h
  · rw [← Option.some.inj h]
    exact c.multibyteSize_words _
  · split_ifs at h with hW
    rw [← Option.some.inj h, hW]
    exact ⟨Nat.dvd_refl 2, Nat.two_pos⟩
  · split_ifs at h with hW
    rw [← Option.some.inj h, hW]
    exact ⟨Nat.dvd_refl 2, Nat.two_pos⟩
  · cases h

theorem LogEntry.writeSize_le_size {c : Config} {log : LogEntry} {e : Entry}
    (h : log.decode c = some e) : c.writeSize ≤ e.size :=
  Nat.le_of_dvd (size_words h).2 (size_words h).1

theorem Holds.writeSize_le {c : Config} {flash : Memory UInt8} {a : ℕ} {e : Entry}
    (h : Holds c flash a e) : c.writeSize ≤ e.size :=
  LogEntry.writeSize_le_size h.decode

/-- An entry depends only on the bytes it takes. -/
theorem Holds.congr {c : Config} {flash flash' : Memory UInt8} {a : ℕ} {e : Entry}
    (h : Holds c flash a e) (heq : ∀ i, a ≤ i → i < a + e.size → flash i = flash' i) :
    Holds c flash' a e := by
  have hbytes : ∀ i, i < e.size → entryAt flash a i = entryAt flash' a i :=
    fun i hi => heq (a + i) (by omega) (by omega)
  refine ⟨fun hempty => h.notEmpty fun i hi => ?_, ?_, h.short, h.inRange⟩
  · rw [hbytes i (Nat.lt_of_lt_of_le hi h.writeSize_le)]
    exact hempty i hi
  · exact LogEntry.decode_congr h.decode h.short hbytes

namespace Entries

variable {c : Config} {flash flash' : Memory UInt8}

theorem le {a b : ℕ} {es : List Entry} (h : Entries c flash a es b) : a ≤ b := by
  induction es generalizing a with
  | nil => exact Nat.le_of_eq h
  | cons e es ih => exact Nat.le_trans (Nat.le_add_right _ _) (ih h.2)

/-- A chain has at most one entry for each two bytes. -/
theorem length_le {a b : ℕ} {es : List Entry} (h : Entries c flash a es b) :
    a + 2 * es.length ≤ b := by
  induction es generalizing a with
  | nil => exact Nat.le_of_eq h
  | cons e es ih =>
    have hsize := h.1.writeSize_le
    have hW := c.two_le_writeSize
    have hrest := ih h.2
    rw [List.length_cons]
    omega

theorem dvd {a b : ℕ} {es : List Entry} (h : Entries c flash a es b) (ha : c.writeSize ∣ a) :
    c.writeSize ∣ b := by
  induction es generalizing a with
  | nil => exact h ▸ ha
  | cons e es ih =>
    exact ih h.2 (Nat.dvd_add ha (LogEntry.size_words h.1.decode).1)

/-- A chain depends only on the bytes it takes. -/
theorem congr {a b : ℕ} {es : List Entry} (h : Entries c flash a es b)
    (heq : ∀ i, a ≤ i → i < b → flash i = flash' i) : Entries c flash' a es b := by
  induction es generalizing a with
  | nil => exact h
  | cons e es ih =>
    have hle := h.2.le
    exact ⟨h.1.congr fun i hi hlt => heq i hi (by omega),
      ih h.2 fun i hi hlt => heq i (by omega) hlt⟩

/-- Chains compose. -/
theorem append {a b d : ℕ} {es es' : List Entry} (h : Entries c flash a es b)
    (h' : Entries c flash b es' d) : Entries c flash a (es ++ es') d := by
  induction es generalizing a with
  | nil =>
    have hab : a = b := h
    rw [hab]
    exact h'
  | cons e es ih => exact ⟨h.1, ih h.2⟩

end Entries

/-! ## The logical data in the store -/

/-- The consolidated data, or zeros when its checksum does not match. -/
def base (c : Config) (flash : Memory UInt8) : Memory UInt8 :=
  if flash.load c.logicalSize 8 = checksum c flash then flash else fun _ => 0

/-- The log of the store ends at {lit}`a`, with nothing behind it, and the store holds
the logical data {lit}`img`.  In a store without room for a log it ends where it
starts. -/
structure Stored (c : Config) (flash img : Memory UInt8) (a : ℕ) : Prop where
  entries : ∃ es, Entries c flash c.logStart es a ∧
    ∀ i, i < c.logicalSize → img i = applyAll (base c flash) es i
  le : a ≤ max c.backingSize c.logStart
  tail : ∀ i, a ≤ i → i < c.backingSize → flash i = 0

theorem Stored.logStart_le {c : Config} {flash img : Memory UInt8} {a : ℕ}
    (h : Stored c flash img a) : c.logStart ≤ a := by
  obtain ⟨es, hes, -⟩ := h.entries
  exact hes.le

theorem Stored.dvd {c : Config} {flash img : Memory UInt8} {a : ℕ}
    (h : Stored c flash img a) : c.writeSize ∣ a := by
  obtain ⟨es, hes, -⟩ := h.entries
  exact hes.dvd c.writeSize_dvd_logStart

/-- Only the logical data below its size counts. -/
theorem Stored.img_congr {c : Config} {flash img img' : Memory UInt8} {a : ℕ}
    (h : Stored c flash img a) (heq : ∀ i, i < c.logicalSize → img' i = img i) :
    Stored c flash img' a := by
  obtain ⟨es, hes, himg⟩ := h.entries
  exact ⟨⟨es, hes, fun i hi => (heq i hi).trans (himg i hi)⟩, h.le, h.tail⟩

/-- The checksum depends on the logical data alone. -/
theorem checksum_congr {c : Config} {m m' : Memory UInt8}
    (h : ∀ i, i < c.logicalSize → m i = m' i) : checksum c m = checksum c m' := by
  rw [checksum, checksum, Memory.load_congr fun i _ hi => h i (by omega)]

/-- The consolidated data does not depend on the log. -/
theorem base_congr {c : Config} {flash flash' : Memory UInt8}
    (h : ∀ i, i < c.logStart → flash i = flash' i) {i : ℕ} (hi : i < c.logicalSize) :
    base c flash i = base c flash' i := by
  have hsum : checksum c flash = checksum c flash' :=
    checksum_congr fun j hj => h j (by rw [Config.logStart]; omega)
  have hload : flash.load c.logicalSize 8 = flash'.load c.logicalSize 8 :=
    Memory.load_congr fun j _ hj => h j (by rw [Config.logStart]; omega)
  simp only [base, hsum, hload]
  split_ifs
  · exact h i (by rw [Config.logStart]; omega)
  · rfl

/-- More entries behind the log. -/
theorem Stored.extend {c : Config} {flash flash' img : Memory UInt8} {a b : ℕ}
    {es : List Entry} (h : Stored c flash img a)
    (heq : ∀ i, i < a → flash i = flash' i) (hes : Entries c flash' a es b)
    (hle : b ≤ max c.backingSize c.logStart) (htail : ∀ i, b ≤ i → i < c.backingSize → flash' i = 0) :
    Stored c flash' (applyAll img es) b := by
  have hstart := h.logStart_le
  obtain ⟨es₀, hes₀, himg⟩ := h.entries
  refine ⟨⟨es₀ ++ es, (hes₀.congr fun i _ hi => heq i hi).append hes, fun i hi => ?_⟩, hle, htail⟩
  rw [applyAll_append]
  apply applyAll_congr
  rw [himg i hi]
  exact applyAll_congr es₀ (base_congr (fun j hj => heq j (by omega)) hi)

/-- An erased store holds zeros. -/
theorem stored_erased {c : Config} {flash : Memory UInt8}
    (h : ∀ i, i < c.backingSize → flash i = 0) :
    Stored c flash (fun _ => 0) c.logStart := by
  refine ⟨⟨[], rfl, fun i hi => ?_⟩, Nat.le_max_right _ _, fun i _ hi => h i hi⟩
  rw [applyAll_nil, base]
  split_ifs
  · have hle := c.logicalSize_le
    exact (h i (by omega)).symm
  · rfl

/-- A freshly consolidated store holds the cache. -/
theorem stored_consolidatedFlash {c : Config} (cache flash : Memory UInt8) :
    Stored c (consolidatedFlash c cache flash) cache c.logStart := by
  have himage : ∀ i, i < c.logicalSize → consolidatedFlash c cache flash i = cache i := by
    intro i hi
    rw [consolidatedFlash, Memory.store_of_lt hi, Memory.store_of_mem (Nat.zero_le i)
      (by rw [Memory.load_length]; omega), Memory.load_getElem]
    congr 1
    omega
  have hload : (consolidatedFlash c cache flash).load c.logicalSize 8 = checksum c cache := by
    have := Memory.load_store_same ((flash.fill 0 c.backingSize 0).store 0
      (cache.load 0 c.logicalSize)) c.logicalSize (checksum c cache)
    rwa [checksum_length] at this
  refine ⟨⟨[], rfl, fun i hi => ?_⟩, Nat.le_max_right _ _,
    fun i hi hlt => consolidatedFlash_of_ge hi hlt⟩
  rw [applyAll_nil, base, hload, checksum_congr himage, if_pos rfl, himage i hi]

end WearLeveling
end VialQmk
