import Mathlib.Algebra.Group.Nat.Defs
import VialQmk.Library.Memory

/-!
# Wear leveling - configuration and backing store

The wear-leveling code sees a backing store through a handful of primitives and
keeps its own state in one static structure.  This module fixes the compile-time
options accepted by the static asserts, the state, and the primitives.  Each
primitive takes its success or failure from a stream of answers, so a run of the
code is a function of the store, the answers and the arguments of the calls.

A {lit}`backing_store_int_t` is kept as the bytes it occupies in memory: the code
moves such words between memory and store and compares them with zero, and never
computes with them.

Main results:

- Definition {lit}`Config`: the sizes accepted by the static asserts.
- Definitions {lit}`backingStoreRead`, {lit}`backingStoreWrite` and
  {lit}`backingStoreErase`: the primitives over a store that reads as zero after an
  erase.
- Theorems {lit}`backingStoreReadBulk_spec` and {lit}`backingStoreWriteBulk_spec`:
  what the bulk helpers do, whether or not a primitive fails.
-/

namespace VialQmk
namespace WearLeveling

/-- The compile-time options {lit}`BACKING_STORE_WRITE_SIZE`,
{lit}`WEAR_LEVELING_BACKING_SIZE` and {lit}`WEAR_LEVELING_LOGICAL_SIZE`, with the
static asserts of {lit}`wear_leveling_internal.h`.  The primitives take
{lit}`uint32_t` addresses, so an entry that starts inside the store has 32-bit
addresses. -/
structure Config where
  writeSize : ℕ
  backingSize : ℕ
  logicalSize : ℕ
  writeSize_eq : writeSize = 2 ∨ writeSize = 4 ∨ writeSize = 8
  logicalSize_pos : 0 < logicalSize
  logicalSize_le : logicalSize * 2 ≤ backingSize
  logicalSize_mod : logicalSize % writeSize = 0
  backingSize_mod : backingSize % logicalSize = 0
  backingSize_addressable : backingSize + 8 ≤ 2 ^ 32

/-- The checksum of the consolidated data takes 8 bytes, then the write log starts. -/
def Config.logStart (c : Config) : ℕ :=
  c.logicalSize + 8

theorem Config.writeSize_pos (c : Config) : 0 < c.writeSize := by
  have := c.writeSize_eq
  omega

theorem Config.writeSize_dvd_eight (c : Config) : c.writeSize ∣ 8 := by
  rcases c.writeSize_eq with h | h | h <;> rw [h] <;> decide

theorem Config.writeSize_dvd_logicalSize (c : Config) : c.writeSize ∣ c.logicalSize :=
  Nat.dvd_of_mod_eq_zero c.logicalSize_mod

theorem Config.writeSize_dvd_backingSize (c : Config) : c.writeSize ∣ c.backingSize :=
  Nat.dvd_trans c.writeSize_dvd_logicalSize (Nat.dvd_of_mod_eq_zero c.backingSize_mod)

theorem Config.writeSize_dvd_logStart (c : Config) : c.writeSize ∣ c.logStart :=
  Nat.dvd_add c.writeSize_dvd_logicalSize c.writeSize_dvd_eight

/-- Words do not straddle the end of the store. -/
theorem Config.add_writeSize_le {c : Config} {a : ℕ} (hdvd : c.writeSize ∣ a)
    (hlt : a < c.backingSize) : a + c.writeSize ≤ c.backingSize := by
  obtain ⟨k, rfl⟩ := hdvd
  obtain ⟨n, hn⟩ := c.writeSize_dvd_backingSize
  rw [hn] at hlt ⊢
  have hkn : k < n := Nat.lt_of_mul_lt_mul_left hlt
  calc c.writeSize * k + c.writeSize = c.writeSize * (k + 1) := by rw [Nat.mul_succ]
    _ ≤ c.writeSize * n := Nat.mul_le_mul_left _ hkn

/-- {lit}`wear_leveling_status_t`. -/
inductive Status
  | failed
  | success
  | consolidated
deriving DecidableEq, Repr

/-- {lit}`backing_store_lock_status_t`. -/
inductive LockStatus
  | failure
  | success
  | unchanged
deriving DecidableEq, Repr

/-- A {lit}`backing_store_int_t`, as the bytes it occupies in memory. -/
abbrev Word := List UInt8

/-- What a run does, step by step: the calls of the primitives with their success,
and the stores of the log playback into the cache. -/
inductive Event
  | init (ok : Bool)
  | unlock (ok : Bool)
  | lock (ok : Bool)
  | erase (ok : Bool)
  | write (address : ℕ) (value : Word) (ok : Bool)
  | read (address : ℕ) (ok : Bool)
  /-- {lit}`memcpy(&cache[dst], &log.raw8[src], length)` -/
  | memcpy (dst src length : ℕ)
  /-- {lit}`cache[index] = ...` -/
  | assign (index : ℕ)
deriving DecidableEq, Repr

/-- The static variable {lit}`wear_leveling` together with the world around it: the
contents of the store (a word reads as zero after an erase), the success of the
primitive calls to come, the contents of uninitialised locals, and what has
happened so far, newest first. -/
structure State where
  cache : Memory UInt8
  writeAddress : ℕ
  unlocked : Bool
  flash : Memory UInt8
  answers : ℕ → Bool
  stack : Memory UInt8
  trace : List Event

/-- No primitive call fails from now on. -/
def State.NoFailure (s : State) : Prop :=
  ∀ n, s.answers n = true

/-! ## The primitives -/

/-- Call a primitive: take the next answer and record the call. -/
def State.ask (s : State) (event : Bool → Event) : Bool × State :=
  (s.answers 0,
    { s with
      answers := fun n => s.answers (n + 1)
      trace := event (s.answers 0) :: s.trace })

/-- {lit}`backing_store_init` -/
def backingStoreInit (s : State) : Bool × State :=
  s.ask .init

/-- {lit}`backing_store_unlock` -/
def backingStoreUnlock (s : State) : Bool × State :=
  s.ask .unlock

/-- {lit}`backing_store_lock` -/
def backingStoreLock (s : State) : Bool × State :=
  s.ask .lock

/-- {lit}`backing_store_erase`: every byte of the store reads as zero afterwards. -/
def backingStoreErase (c : Config) (s : State) : Bool × State :=
  let r := s.ask .erase
  if r.1 then (true, { r.2 with flash := r.2.flash.fill 0 c.backingSize 0 })
  else (false, r.2)

/-- {lit}`backing_store_write` -/
def backingStoreWrite (address : ℕ) (value : Word) (s : State) : Bool × State :=
  let r := s.ask (.write address value)
  if r.1 then (true, { r.2 with flash := r.2.flash.store address value })
  else (false, r.2)

/-- {lit}`backing_store_read` into the object {lit}`target`, at byte {lit}`offset` of
it.  A failed read leaves the object as it was. -/
def backingStoreRead (c : Config) (address : ℕ) (target : Memory UInt8) (offset : ℕ)
    (s : State) : Bool × Memory UInt8 × State :=
  let r := s.ask (.read address)
  if r.1 then (true, target.store offset (s.flash.load address c.writeSize), r.2)
  else (false, target, r.2)

/-- {lit}`backing_store_read_bulk` of {lit}`itemCount` words. -/
def backingStoreReadBulk (c : Config) (address : ℕ) (target : Memory UInt8) (offset : ℕ) :
    ℕ → State → Bool × Memory UInt8 × State
  | 0, s => (true, target, s)
  | itemCount + 1, s =>
    let r := backingStoreRead c address target offset s
    if r.1 then
      backingStoreReadBulk c (address + c.writeSize) r.2.1 (offset + c.writeSize) itemCount r.2.2
    else r

/-- {lit}`backing_store_write_bulk` of {lit}`itemCount` words. -/
def backingStoreWriteBulk (c : Config) (address : ℕ) (values : Memory UInt8) (offset : ℕ) :
    ℕ → State → Bool × State
  | 0, s => (true, s)
  | itemCount + 1, s =>
    let r := backingStoreWrite address (values.load offset c.writeSize) s
    if r.1 then
      backingStoreWriteBulk c (address + c.writeSize) values (offset + c.writeSize) itemCount r.2
    else r

/-! ## What the primitives leave alone -/

section Frame

variable (s : State) (event : Bool → Event)

@[simp]
theorem ask_cache : (s.ask event).2.cache = s.cache :=
  rfl

@[simp]
theorem ask_writeAddress : (s.ask event).2.writeAddress = s.writeAddress :=
  rfl

@[simp]
theorem ask_unlocked : (s.ask event).2.unlocked = s.unlocked :=
  rfl

@[simp]
theorem ask_flash : (s.ask event).2.flash = s.flash :=
  rfl

@[simp]
theorem ask_stack : (s.ask event).2.stack = s.stack :=
  rfl

@[simp]
theorem ask_trace : (s.ask event).2.trace = event (s.ask event).1 :: s.trace :=
  rfl

end Frame

theorem State.NoFailure.ask_fst {s : State} (h : s.NoFailure) (event : Bool → Event) :
    (s.ask event).1 = true :=
  h 0

theorem State.NoFailure.ask_snd {s : State} (h : s.NoFailure) (event : Bool → Event) :
    (s.ask event).2.NoFailure :=
  fun n => h (n + 1)

/-- {lit}`s'` has the cache and the write pointer of {lit}`s`, and no failure turns up
that was not there. -/
structure SameRam (s s' : State) : Prop where
  cache : s'.cache = s.cache
  writeAddress : s'.writeAddress = s.writeAddress
  noFailure : s.NoFailure → s'.NoFailure

namespace SameRam

theorem refl (s : State) : SameRam s s :=
  ⟨rfl, rfl, id⟩

theorem trans {s s' s'' : State} (h : SameRam s s') (h' : SameRam s' s'') : SameRam s s'' :=
  ⟨h'.cache.trans h.cache, h'.writeAddress.trans h.writeAddress, h'.noFailure ∘ h.noFailure⟩

theorem ask (s : State) (event : Bool → Event) : SameRam s (s.ask event).2 :=
  ⟨rfl, rfl, fun h => h.ask_snd event⟩

end SameRam

/-! ## Reading and writing many words -/

/-- A write changes the store exactly when it succeeds. -/
theorem backingStoreWrite_spec (address : ℕ) (value : Word) (s : State) :
    SameRam s (backingStoreWrite address value s).2 ∧
      (backingStoreWrite address value s).2.flash =
        (if (backingStoreWrite address value s).1 then s.flash.store address value
        else s.flash) ∧
      (s.NoFailure → (backingStoreWrite address value s).1 = true) := by
  have hask := SameRam.ask s (.write address value)
  cases h : (s.ask (.write address value)).1 with
  | false =>
    simp only [backingStoreWrite, h]
    exact ⟨hask, rfl, fun hok => absurd (hok.ask_fst (.write address value)) (by simp [h])⟩
  | true =>
    simp only [backingStoreWrite, h]
    exact ⟨⟨rfl, rfl, hask.noFailure⟩, rfl, fun _ => rfl⟩

/-- A bulk write stores a first part of the values, all of them when it succeeds. -/
theorem backingStoreWriteBulk_spec (c : Config) (values : Memory UInt8) (n : ℕ) :
    ∀ (address offset : ℕ) (s : State),
      SameRam s (backingStoreWriteBulk c address values offset n s).2 ∧
      (∃ k, k ≤ n ∧ (backingStoreWriteBulk c address values offset n s).2.flash =
          s.flash.store address (values.load offset (c.writeSize * k)) ∧
        ((backingStoreWriteBulk c address values offset n s).1 = true → k = n)) ∧
      (s.NoFailure → (backingStoreWriteBulk c address values offset n s).1 = true) := by
  induction n with
  | zero =>
    intro address offset s
    exact ⟨SameRam.refl s, ⟨0, Nat.le_refl 0, by simp [backingStoreWriteBulk], fun _ => rfl⟩,
      fun _ => rfl⟩
  | succ n ih =>
    intro address offset s
    obtain ⟨hram, hflash, hok⟩ :=
      backingStoreWrite_spec address (values.load offset c.writeSize) s
    cases hw : (backingStoreWrite address (values.load offset c.writeSize) s).1 with
    | false =>
      simp only [backingStoreWriteBulk, hw, if_false, Bool.false_eq_true]
      refine ⟨hram, ⟨0, Nat.zero_le _, ?_, by simp⟩, fun h => absurd (hok h) (by simp [hw])⟩
      rw [hflash, hw]
      simp
    | true =>
      simp only [backingStoreWriteBulk, hw, if_true]
      obtain ⟨hram', ⟨k, hk, hstore, hdone⟩, hok'⟩ := ih (address + c.writeSize)
        (offset + c.writeSize) (backingStoreWrite address (values.load offset c.writeSize) s).2
      refine ⟨hram.trans hram', ⟨k + 1, by omega, ?_, fun h => by rw [hdone h]⟩,
        fun h => hok' (hram.noFailure h)⟩
      rw [hstore, hflash, hw, if_pos rfl, Nat.mul_succ, Nat.add_comm (c.writeSize * k),
        Memory.load_add, Memory.store_append, Memory.load_length]

/-- A bulk read leaves the store alone, and fills its target when no read fails. -/
theorem backingStoreReadBulk_spec (c : Config) (n : ℕ) :
    ∀ (address : ℕ) (target : Memory UInt8) (offset : ℕ) (s : State),
      SameRam s (backingStoreReadBulk c address target offset n s).2.2 ∧
      (backingStoreReadBulk c address target offset n s).2.2.flash = s.flash ∧
      (s.NoFailure → (backingStoreReadBulk c address target offset n s).1 = true ∧
        (backingStoreReadBulk c address target offset n s).2.1 =
          target.store offset (s.flash.load address (c.writeSize * n))) := by
  induction n with
  | zero =>
    intro address target offset s
    exact ⟨SameRam.refl s, rfl, fun _ => ⟨rfl, by simp [backingStoreReadBulk]⟩⟩
  | succ n ih =>
    intro address target offset s
    have hask := SameRam.ask s (.read address)
    cases hr : (s.ask (.read address)).1 with
    | false =>
      simp only [backingStoreReadBulk, backingStoreRead, hr]
      exact ⟨hask, rfl, fun h => absurd (h.ask_fst (.read address)) (by simp [hr])⟩
    | true =>
      simp only [backingStoreReadBulk, backingStoreRead, hr, if_true]
      obtain ⟨hram, hflash, hok⟩ := ih (address + c.writeSize)
        (target.store offset (s.flash.load address c.writeSize)) (offset + c.writeSize)
        (s.ask (.read address)).2
      refine ⟨hask.trans hram, by rw [hflash, ask_flash], fun h => ?_⟩
      obtain ⟨hfst, htarget⟩ := hok (hask.noFailure h)
      refine ⟨hfst, ?_⟩
      rw [htarget, ask_flash, Nat.mul_succ, Nat.add_comm (c.writeSize * n), Memory.load_add,
        Memory.store_append, Memory.load_length]

end WearLeveling
end VialQmk
