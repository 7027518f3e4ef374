import VialQmk.WearLeveling.Algorithm

/-!
# Wear leveling - consolidation

What the locking helpers and the consolidation do to the cache, the write pointer
and the store, for every pattern of failures.

Main results:

- Theorem {lit}`consolidateForce_spec`: a consolidation that succeeds leaves the cache
  and its checksum in an otherwise empty store.
- Theorem {lit}`consolidateForce_clean`: whatever fails, the store is empty from the
  write pointer on.
-/

namespace VialQmk
namespace WearLeveling

/-- The store reads as zero from the write pointer on. -/
def State.Clean (c : Config) (s : State) : Prop :=
  ∀ i, s.writeAddress ≤ i → i < c.backingSize → s.flash i = 0

/-- The store after an erase and a write of the consolidated data and its checksum. -/
def consolidatedFlash (c : Config) (cache flash : Memory UInt8) : Memory UInt8 :=
  ((flash.fill 0 c.backingSize 0).store 0 (cache.load 0 c.logicalSize)).store c.logicalSize
    (checksum c cache)

/-! ## Locking -/

theorem unlock_sameRam (s : State) : SameRam s (unlock s).2 := by
  simp only [unlock]
  split_ifs with hun hok
  · exact SameRam.refl s
  · exact ⟨rfl, rfl, (SameRam.ask s .unlock).noFailure⟩
  · exact SameRam.ask s .unlock

theorem unlock_flash (s : State) : (unlock s).2.flash = s.flash := by
  simp only [unlock]
  split_ifs <;> rfl

theorem unlock_ok {s : State} (h : s.NoFailure) : (unlock s).1 ≠ .failure := by
  have hok : (backingStoreUnlock s).1 = true := h.ask_fst .unlock
  simp only [unlock]
  split_ifs <;> simp_all

theorem lock_sameRam (s : State) : SameRam s (lock s).2 := by
  simp only [lock]
  split_ifs with hun hok
  · exact ⟨rfl, rfl, (SameRam.ask s .lock).noFailure⟩
  · exact SameRam.ask s .lock
  · exact SameRam.refl s

theorem lock_flash (s : State) : (lock s).2.flash = s.flash := by
  simp only [lock]
  split_ifs <;> rfl

theorem lock_ok {s : State} (h : s.NoFailure) : (lock s).1 ≠ .failure := by
  have hok : (backingStoreLock s).1 = true := h.ask_fst .lock
  simp only [lock]
  split_ifs <;> simp_all

/-! ## Writing the consolidated data -/

theorem logicalSize_words (c : Config) : c.writeSize * (c.logicalSize / c.writeSize) = c.logicalSize :=
  Nat.mul_div_cancel' c.writeSize_dvd_logicalSize

theorem checksum_words (c : Config) : c.writeSize * (8 / c.writeSize) = 8 :=
  Nat.mul_div_cancel' c.writeSize_dvd_eight

/-- Locking only when this call unlocked. -/
theorem lockIf_spec (cond : Prop) [Decidable cond] (s : State) :
    SameRam s (if cond then (lock s).2 else s) ∧
      (if cond then (lock s).2 else s).flash = s.flash := by
  split_ifs
  · exact ⟨lock_sameRam s, lock_flash s⟩
  · exact ⟨SameRam.refl s, rfl⟩

/-- A store of at most {lit}`n` bytes is not seen behind them. -/
theorem store_load_of_ge {m values : Memory UInt8} {a o k n i : ℕ} (hk : k ≤ n)
    (hi : a + n ≤ i) : m.store a (values.load o k) i = m i :=
  Memory.store_of_ge (by rw [Memory.load_length]; omega)

/-- The consolidated data and its checksum stay below the start of the log. -/
theorem writeConsolidated_spec (c : Config) (s : State) :
    SameRam s (writeConsolidated c s).2 ∧
      (∀ i, c.logStart ≤ i → (writeConsolidated c s).2.flash i = s.flash i) ∧
      ((writeConsolidated c s).1 = .failed ∨
        (writeConsolidated c s).1 = .consolidated ∧
          (writeConsolidated c s).2.flash =
            (s.flash.store 0 (s.cache.load 0 c.logicalSize)).store c.logicalSize
              (checksum c s.cache)) ∧
      (s.NoFailure → (writeConsolidated c s).1 = .consolidated) := by
  have hL := logicalSize_words c
  have hS := checksum_words c
  have hunlock := unlock_sameRam s
  have hcache := hunlock.cache
  obtain ⟨hram, ⟨k, hk, hflash, hdone⟩, hok⟩ := backingStoreWriteBulk_spec c (unlock s).2.cache
    (c.logicalSize / c.writeSize) 0 0 (unlock s).2
  have hkL : c.writeSize * k ≤ c.logicalSize := hL ▸ Nat.mul_le_mul_left _ hk
  rw [unlock_flash] at hflash
  simp only [writeConsolidated]
  generalize hr : backingStoreWriteBulk c 0 (unlock s).2.cache 0
    (c.logicalSize / c.writeSize) (unlock s).2 = r at *
  obtain ⟨hlockRam, hlockFlash⟩ := lockIf_spec ((unlock s).1 = .success) r.2
  cases h : r.1 with
  | false =>
    simp only [h, Bool.false_eq_true, if_false]
    refine ⟨(hunlock.trans hram).trans hlockRam, fun i hi => ?_, Or.inl trivial, fun hno => ?_⟩
    · rw [hlockFlash, hflash, store_load_of_ge hkL (by rw [Config.logStart] at hi; omega)]
    · exact absurd (hok (hunlock.noFailure hno)) (by simp [h])
  | true =>
    simp only [if_true]
    obtain ⟨hram', ⟨k', hk', hflash', hdone'⟩, hok'⟩ := backingStoreWriteBulk_spec c
      (Memory.store (fun _ => 0) 0 (checksum c r.2.cache)) (8 / c.writeSize) c.logicalSize 0 r.2
    have hk'8 : c.writeSize * k' ≤ 8 := hS ▸ Nat.mul_le_mul_left _ hk'
    generalize hr' : backingStoreWriteBulk c c.logicalSize
      (Memory.store (fun _ => 0) 0 (checksum c r.2.cache)) 0 (8 / c.writeSize) r.2 = r' at *
    obtain ⟨hlockRam, hlockFlash⟩ := lockIf_spec ((unlock s).1 = .success) r'.2
    have hkdone : c.writeSize * k = c.logicalSize := by rw [hdone h, hL]
    refine ⟨((hunlock.trans hram).trans hram').trans hlockRam, fun i hi => ?_, ?_, fun hno => ?_⟩
    · rw [Config.logStart] at hi
      rw [hlockFlash, hflash', store_load_of_ge hk'8 hi, hflash, store_load_of_ge hkL (by omega)]
    · cases h' : r'.1 with
      | false => exact Or.inl (by simp)
      | true =>
        refine Or.inr ⟨by simp, ?_⟩
        have hrcache : r.2.cache = s.cache := hram.cache.trans hcache
        have hload : Memory.load (Memory.store (fun _ => 0) 0 (checksum c s.cache)) 0 8 =
            checksum c s.cache := by
          have := Memory.load_store_same (fun _ => 0) 0 (checksum c s.cache)
          rwa [checksum_length] at this
        rw [hlockFlash, hflash', hdone' h', hS, hflash, hkdone, hcache, hrcache, hload]
    · rw [hok' ((hunlock.trans hram).noFailure hno), if_pos rfl]

/-! ## Consolidation -/

/-- A consolidation fails before the erase, fails after it, or succeeds. -/
theorem consolidateForce_spec (c : Config) (s : State) :
    (consolidateForce c s).2.cache = s.cache ∧
      ((consolidateForce c s).1 = .failed ∧ (consolidateForce c s).2.flash = s.flash ∧
          (consolidateForce c s).2.writeAddress = s.writeAddress ∨
        (consolidateForce c s).1 = .failed ∧
          (consolidateForce c s).2.writeAddress = c.logStart ∧
          (∀ i, c.logStart ≤ i → i < c.backingSize → (consolidateForce c s).2.flash i = 0) ∨
        (consolidateForce c s).1 = .consolidated ∧
          (consolidateForce c s).2.writeAddress = c.logStart ∧
          (consolidateForce c s).2.flash = consolidatedFlash c s.cache s.flash) ∧
      (s.NoFailure →
        (consolidateForce c s).1 = .consolidated ∧ (consolidateForce c s).2.NoFailure) := by
  have hask := SameRam.ask s .erase
  cases h : (s.ask .erase).1 with
  | false =>
    simp only [consolidateForce, backingStoreErase, h, Bool.false_eq_true, if_false]
    exact ⟨rfl, Or.inl ⟨trivial, rfl, rfl⟩, fun hno => absurd (hno.ask_fst .erase) (by simp [h])⟩
  | true =>
    simp only [consolidateForce, backingStoreErase, h, if_true]
    obtain ⟨hram, hbehind, hresult, hok⟩ := writeConsolidated_spec c
      { (s.ask .erase).2 with flash := (s.ask .erase).2.flash.fill 0 c.backingSize 0 }
    refine ⟨hram.cache, ?_, fun hno => ⟨hok (hask.noFailure hno),
      hram.noFailure (hask.noFailure hno)⟩⟩
    rcases hresult with hfail | ⟨hdone, hflash⟩
    · refine Or.inr (Or.inl ⟨hfail, trivial, fun i hi hlt => ?_⟩)
      rw [hbehind i hi]
      exact Memory.fill_of_mem (Nat.zero_le i) (by omega)
    · exact Or.inr (Or.inr ⟨hdone, trivial, hflash⟩)

/-- Behind the checksum a freshly consolidated store is empty. -/
theorem consolidatedFlash_of_ge {c : Config} {cache flash : Memory UInt8} {i : ℕ}
    (hle : c.logStart ≤ i) (hlt : i < c.backingSize) : consolidatedFlash c cache flash i = 0 := by
  rw [Config.logStart] at hle
  rw [consolidatedFlash, Memory.store_of_ge (by rw [checksum_length]; exact hle),
    store_load_of_ge (Nat.le_refl _) (by omega)]
  exact Memory.fill_of_mem (Nat.zero_le i) (by omega)

/-- A consolidation leaves the store empty from the write pointer on, if it was. -/
theorem consolidateForce_clean {c : Config} {s : State} (h : s.Clean c) :
    (consolidateForce c s).2.Clean c := by
  obtain ⟨-, hcase, -⟩ := consolidateForce_spec c s
  intro i hle hlt
  rcases hcase with ⟨-, hflash, hptr⟩ | ⟨-, hptr, hzero⟩ | ⟨-, hptr, hflash⟩
  · rw [hflash]
    exact h i (hptr ▸ hle) hlt
  · exact hzero i (hptr ▸ hle) hlt
  · rw [hflash]
    exact consolidatedFlash_of_ge (hptr ▸ hle) hlt

end WearLeveling
end VialQmk
