import VialQmk.Library.Runs
import VialQmk.WearLeveling.Append

/-!
# Wear leveling - persistence

The abstract view of the component is an array of bytes: a write stores a block, an
erase sets all bytes to zero, a boot changes nothing.  While no primitive fails the
cache is that array and the store holds it too, through any number of
consolidations.

Main results:

- Theorem {lit}`write_appended`: a write that changes the cache appends the words of
  its entries.
- Theorem {lit}`models_step`: each operation keeps store and cache in step and acts as
  the abstract operation.
- Theorem {lit}`persistence`: reads and boots see the array of the abstract run.
-/

namespace VialQmk
namespace WearLeveling

/-! ## Writes -/

/-- A non-empty write has words to append. -/
theorem encode_words_ne_nil {c : Config} {address : ℕ} {value : List UInt8} (h : value ≠ []) :
    (encode c address value).flatMap (Record.words c) ≠ [] := by
  have hwords : ∀ r : Record, c.writeSize ≤ r.entry.size → r.words c ≠ [] := by
    intro r hr hnil
    have hdiv : 0 < r.entry.size / c.writeSize := Nat.div_pos hr c.writeSize_pos
    simp only [Record.words, List.map_eq_nil_iff, List.range_eq_nil] at hnil
    omega
  have hcons : ∀ {r : Record} {rs : List Record}, c.writeSize ≤ r.entry.size →
      (r :: rs).flatMap (Record.words c) ≠ [] := by
    intro r rs hr hnil
    rw [List.flatMap_cons, List.append_eq_nil_iff] at hnil
    exact hwords r hr hnil.1
  obtain ⟨x, q, rfl⟩ := List.exists_cons_of_ne_nil h
  simp only [encode, List.length_cons, encodeLoop]
  rw [if_neg h]
  split_ifs with hword hopt
  · exact hcons (Nat.le_of_eq hword.1)
  · exact hcons (Nat.le_of_eq hopt.1)
  · exact hcons (Nat.le_of_dvd (c.multibyteSize_words _).2 (c.multibyteSize_words _).1)

/-- A state with the same memory may start an append. -/
theorem Appended.of_sameRam {c : Config} {ws : List Word} {s s' : State} {r : Status × State}
    (hram : SameRam s s') (hflash : s'.flash = s.flash) (h : Appended c ws s' r) :
    Appended c ws s r := by
  refine ⟨h.cache.trans hram.cache, fun hs => ?_, fun hs => ?_, fun hclean => h.clean ?_,
    fun hno => h.noFailure (hram.noFailure hno)⟩
  · obtain ⟨⟨hf, hp⟩, hlt⟩ := h.success hs
    exact ⟨⟨by rw [hf, hflash, hram.writeAddress], by rw [hp, hram.writeAddress]⟩, hlt⟩
  · rw [← hram.cache]
    exact h.consolidated hs
  · intro i hle hlt
    rw [hflash]
    exact hclean i (hram.writeAddress ▸ hle) hlt

/-- Locking after an append may only turn its status into a failure. -/
theorem Appended.lock {c : Config} {ws : List Word} {s : State} {r : Status × State}
    (h : Appended c ws s r) :
    Appended c ws s (if (lock r.2).1 = .failure then .failed else r.1, (lock r.2).2) := by
  have hram := lock_sameRam r.2
  have hflash := lock_flash r.2
  have hstatus : ∀ {st : Status}, st ≠ .failed →
      (if (WearLeveling.lock r.2).1 = .failure then Status.failed else r.1) = st → r.1 = st := by
    intro st hne heq
    split_ifs at heq
    · exact absurd heq.symm hne
    · exact heq
  refine ⟨hram.cache.trans h.cache, fun hs => ?_, fun hs => ?_, fun hclean i hle hlt => ?_,
    fun hno => ?_⟩
  · obtain ⟨⟨hf, hp⟩, hlt⟩ := h.success (hstatus (by simp) hs)
    exact ⟨⟨hflash.trans hf, hram.writeAddress.trans hp⟩,
      fun hne => hram.writeAddress ▸ hlt hne⟩
  · obtain ⟨hptr, flash, hf⟩ := h.consolidated (hstatus (by simp) hs)
    exact ⟨hram.writeAddress.trans hptr, flash, hflash.trans hf⟩
  · rw [hflash]
    exact h.clean hclean i (hram.writeAddress ▸ hle) hlt
  · obtain ⟨hok, hno'⟩ := h.noFailure hno
    refine ⟨?_, hram.noFailure hno'⟩
    simp only [if_neg (lock_ok hno')]
    exact hok

/-- A call whose range stays inside the logical data passes the check of the code. -/
theorem not_lt_of_inRange {c : Config} {address length : ℕ}
    (h : address + length ≤ c.logicalSize) : ¬ c.logicalSize < (address + length) % 2 ^ 32 := by
  have hmod : (address + length) % 2 ^ 32 ≤ address + length := Nat.mod_le _ _
  omega

/-- A write of the data that the cache already holds does nothing. -/
theorem write_of_eq {c : Config} {address : ℕ} {value : List UInt8} {s : State}
    (hrange : address + value.length ≤ c.logicalSize)
    (heq : s.cache.load address value.length = value) :
    write c address value s = (.success, s) := by
  rw [write, if_neg (not_lt_of_inRange hrange), if_pos heq]

/-- The part of {lit}`wear_leveling_write` up to the lock at its end, for data that the cache does
not hold. -/
def writeLog (c : Config) (address : ℕ) (value : List UInt8) (s : State) : Status × State :=
  let s := { s with cache := s.cache.store address value }
  let l := unlock s
  if l.1 = .failure then (.failed, l.2)
  else onSuccess (writeRaw c address value l.2) (consolidateIfNeeded c)

/-- The lock at the end of a write, unless the store was unlocked before. -/
def lockAfter (unlocked : LockStatus) (r : Status × State) : Status × State :=
  if unlocked = .unchanged then r
  else (if (lock r.2).1 = .failure then .failed else r.1, (lock r.2).2)

theorem write_eq_writeLog {c : Config} {address : ℕ} {value : List UInt8} {s : State}
    (hrange : address + value.length ≤ c.logicalSize)
    (hne : s.cache.load address value.length ≠ value) :
    write c address value s =
      lockAfter (unlock { s with cache := s.cache.store address value }).1
        (writeLog c address value s) := by
  set s₀ : State := { s with cache := s.cache.store address value } with hs₀
  simp only [write, writeLog, lockAfter, if_neg (not_lt_of_inRange hrange), if_neg hne, ← hs₀]
  by_cases hfail : (unlock s₀).1 = .failure
  · have hrelock : ¬ (unlock s₀).1 = .unchanged := by rw [hfail]; decide
    rw [if_pos hfail, if_neg hrelock, if_pos hfail, ite_self]
  by_cases hsucc : (unlock s₀).1 = .success
  · have hrelock : ¬ (unlock s₀).1 = .unchanged := by rw [hsucc]; decide
    rw [if_neg hfail, if_pos hsucc, if_neg hrelock, if_neg hfail]
  · have hunchanged : (unlock s₀).1 = .unchanged := by
      cases h : (unlock s₀).1 with
      | failure => exact absurd h hfail
      | success => exact absurd h hsucc
      | unchanged => rfl
    rw [if_neg hfail, if_neg hsucc, if_pos hunchanged, if_neg hfail]

/-- Up to the lock a write appends the words of its entries. -/
theorem writeLog_appended (c : Config) (address : ℕ) (value : List UInt8) (s : State) :
    Appended c ((encode c address value).flatMap (Record.words c))
      { s with cache := s.cache.store address value } (writeLog c address value s) := by
  set s₀ : State := { s with cache := s.cache.store address value } with hs₀
  have hram := unlock_sameRam s₀
  have hflash := unlock_flash s₀
  simp only [writeLog, ← hs₀]
  by_cases hfail : (unlock s₀).1 = .failure
  · rw [if_pos hfail]
    refine ⟨hram.cache, by rintro ⟨⟩, by rintro ⟨⟩, fun hclean i hle hlt => ?_,
      fun hno => absurd hfail (unlock_ok hno)⟩
    rw [hflash]
    exact hclean i (hram.writeAddress ▸ hle) hlt
  · have hws : ∀ w ∈ (encode c address value).flatMap (Record.words c),
        w.length = c.writeSize := fun w hw => words_length_of_mem hw
    have happ := Appended.onSuccess (f := consolidateIfNeeded c)
      (appendWords_spec hws (unlock s₀).2) fun _ => consolidateIfNeeded_appended c _
    rw [List.append_nil, ← writeRaw_eq] at happ
    rw [if_neg hfail]
    exact happ.of_sameRam hram hflash

/-- A write that changes the cache appends the words of its entries. -/
theorem write_appended {c : Config} {address : ℕ} {value : List UInt8} {s : State}
    (hrange : address + value.length ≤ c.logicalSize)
    (hne : s.cache.load address value.length ≠ value) :
    Appended c ((encode c address value).flatMap (Record.words c))
      { s with cache := s.cache.store address value } (write c address value s) := by
  rw [write_eq_writeLog hrange hne]
  have happ := writeLog_appended c address value s
  generalize (unlock { s with cache := s.cache.store address value }).1 = unlocked
  cases unlocked with
  | failure => exact happ.lock
  | success => exact happ.lock
  | unchanged => exact happ

/-- The bytes of the log that a write takes. -/
def logBytes (c : Config) (address : ℕ) (value : List UInt8) : ℕ :=
  ((encode c address value).flatMap (Record.words c)).flatten.length

/-- A write that succeeds without a consolidation does not fill the log. -/
theorem write_success_lt {c : Config} {address : ℕ} {value : List UInt8} {s : State}
    (hrange : address + value.length ≤ c.logicalSize)
    (hne : s.cache.load address value.length ≠ value)
    (hstatus : (write c address value s).1 = .success) :
    s.writeAddress + logBytes c address value < c.backingSize := by
  have hvalue : value ≠ [] := by
    rintro rfl
    exact hne rfl
  obtain ⟨⟨-, hptr⟩, hlt⟩ := (write_appended hrange hne).success hstatus
  rw [logBytes, ← hptr]
  exact hlt (encode_words_ne_nil hvalue)

/-- After a successful append of a write the store holds the data it held before with the block
of the write over it. -/
theorem Appended.stored {c : Config} {address : ℕ} {value : List UInt8} {s s₀ : State}
    {r : Status × State} {img : Memory UInt8}
    (happ : Appended c ((encode c address value).flatMap (Record.words c)) s₀ r)
    (hflash₀ : s₀.flash = s.flash) (hptr₀ : s₀.writeAddress = s.writeAddress)
    (hrange : address + value.length ≤ c.logicalSize)
    (hL : address + value.length ≤ 2 ^ 19) (hvalue : value ≠ [])
    (hs : Stored c s.flash img s.writeAddress) (hstatus : r.1 = .success) :
    Stored c r.2.flash (img.store address value) r.2.writeAddress ∧
      r.2.writeAddress < c.backingSize := by
  have henc := encode_encodes hrange hL
  obtain ⟨⟨hflash, hptr⟩, hlt⟩ := happ.success hstatus
  replace hlt := hlt (encode_words_ne_nil hvalue)
  rw [recordsWords_flatten henc.valid, hptr₀] at hflash hptr
  rw [hflash₀] at hflash
  refine ⟨?_, hlt⟩
  have hload := Memory.load_store_same s.flash s.writeAddress
    (recordsBytes (encode c address value))
  rw [← hflash] at hload
  have hext := hs.extend (fun i hi => by rw [hflash]; exact (Memory.store_of_lt hi).symm)
    (entries_of_load henc.valid hload) (by rw [← hptr]; omega) fun i hi hb => by
      rw [hflash, Memory.store_of_ge hi]
      exact hs.tail i (Nat.le_trans (Nat.le_add_right _ _) hi) hb
  rw [henc.apply] at hext
  rw [hptr]
  exact hext

/-- Once a write succeeded, the store holds the data it held before with the block of
the write over it. -/
theorem write_stored {c : Config} {address : ℕ} {value : List UInt8} {s : State}
    {img : Memory UInt8} (hrange : address + value.length ≤ c.logicalSize)
    (hL : address + value.length ≤ 2 ^ 19)
    (hne : s.cache.load address value.length ≠ value) (hs : Stored c s.flash img s.writeAddress)
    (hstatus : (write c address value s).1 = .success) :
    Stored c (write c address value s).2.flash (img.store address value)
        (write c address value s).2.writeAddress ∧
      (write c address value s).2.writeAddress < c.backingSize := by
  have hvalue : value ≠ [] := by
    rintro rfl
    exact hne rfl
  exact (write_appended hrange hne).stored rfl rfl hrange hL hvalue hs hstatus

/-! ## Erase -/

/-- An erase without failures leaves zeros in cache and store. -/
theorem erase_ok {c : Config} {s : State} (h : s.NoFailure) :
    (erase c s).2.writeAddress = c.logStart ∧ (erase c s).2.NoFailure ∧
      (∀ i, i < c.backingSize → (erase c s).2.flash i = 0) ∧
      ∀ i, i < c.logicalSize → (erase c s).2.cache i = 0 := by
  have hram := unlock_sameRam s
  have hno := hram.noFailure h
  have hask : ((unlock s).2.ask .erase).1 = true := hno.ask_fst .erase
  have hzero : ∀ {m : Memory UInt8} {n i : ℕ}, i < n → m.fill 0 n 0 i = 0 :=
    fun hi => Memory.fill_of_mem (Nat.zero_le _) (by omega)
  simp only [erase, if_neg (unlock_ok h), backingStoreErase, hask, if_true]
  by_cases hsucc : (unlock s).1 = .success
  · rw [if_pos hsucc]
    have hlock := lock_sameRam (clearCache c { ((unlock s).2.ask .erase).2 with
      flash := ((unlock s).2.ask .erase).2.flash.fill 0 c.backingSize 0 })
    refine ⟨hlock.writeAddress, hlock.noFailure (hno.ask_snd .erase), fun i hi => ?_, fun i hi => ?_⟩
    · rw [lock_flash]
      exact hzero hi
    · rw [hlock.cache]
      exact hzero hi
  · rw [if_neg hsucc]
    exact ⟨rfl, hno.ask_snd .erase, fun i hi => hzero hi, fun i hi => hzero hi⟩

/-! ## Runs -/

/-- A call of the API that changes something. -/
inductive Op
  | init
  | erase
  | write (address : ℕ) (value : List UInt8)

/-- The range of a write stays inside the logical data. -/
def Op.InRange (c : Config) : Op → Prop
  | .write address value => address + value.length ≤ c.logicalSize
  | _ => True

/-- The state after a call. -/
def step (c : Config) (s : State) : Op → State
  | .init => (init c s).2
  | .erase => (erase c s).2
  | .write address value => (write c address value s).2

/-- The array after a call: the abstract operation. -/
def specStep (img : Memory UInt8) : Op → Memory UInt8
  | .init => img
  | .erase => fun _ => 0
  | .write address value => img.store address value

/-- The store holds what the cache holds, and no failure is to come. -/
structure InSync (c : Config) (s : State) : Prop where
  stored : Stored c s.flash s.cache s.writeAddress
  noFailure : s.NoFailure

/-- The cache is the array. -/
def Models (c : Config) (s : State) (img : Memory UInt8) : Prop :=
  InSync c s ∧ ∀ i, i < c.logicalSize → s.cache i = img i

/-- A boot without failures keeps store and cache in step. -/
theorem models_init {c : Config} {s : State} {img : Memory UInt8} {a : ℕ} (hno : s.NoFailure)
    (hs : Stored c s.flash img a) : Models c (init c s).2 img := by
  by_cases hlt : a < c.backingSize
  · have h := init_stored hno hs hlt
    refine ⟨⟨?_, h.noFailure⟩, h.cache⟩
    rw [h.flash, h.writeAddress]
    exact hs.img_congr h.cache
  · have h := init_full hno hs (Nat.le_of_not_lt hlt)
    obtain ⟨flash, hflash⟩ := h.flash
    refine ⟨⟨?_, h.noFailure⟩, h.cache⟩
    rw [hflash, h.writeAddress]
    exact stored_consolidatedFlash _ flash

theorem Models.img_congr {c : Config} {s : State} {img img' : Memory UInt8}
    (h : Models c s img) (heq : ∀ i, i < c.logicalSize → img i = img' i) : Models c s img' :=
  ⟨h.1, fun i hi => (h.2 i hi).trans (heq i hi)⟩

/-- Each call keeps store and cache in step and acts as the abstract operation. -/
theorem models_step {c : Config} (hL : c.logicalSize ≤ 2 ^ 19) {s : State}
    {img : Memory UInt8} {op : Op} (h : Models c s img) (hop : op.InRange c) :
    Models c (step c s op) (specStep img op) := by
  obtain ⟨hsync, himg⟩ := h
  cases op with
  | init => exact (models_init hsync.noFailure hsync.stored).img_congr himg
  | erase =>
    obtain ⟨hptr, hno, hflash, hcache⟩ := erase_ok (c := c) hsync.noFailure
    refine ⟨⟨?_, hno⟩, hcache⟩
    simp only [step]
    rw [hptr]
    exact (stored_erased hflash).img_congr hcache
  | write address value =>
    have himg' : ∀ i, i < c.logicalSize →
        s.cache.store address value i = img.store address value i :=
      fun i hi => Memory.store_congr (himg i hi)
    by_cases heq : s.cache.load address value.length = value
    · have hwrite : step c s (.write address value) = s :=
        congrArg Prod.snd (write_of_eq hop heq)
      have hself : s.cache.store address value = s.cache := by
        conv_lhs => rw [← heq]
        exact Memory.store_load_self _ _ _
      rw [hwrite]
      rw [hself] at himg'
      exact ⟨hsync, himg'⟩
    · have happ := write_appended hop heq
      obtain ⟨hok, hno⟩ := happ.noFailure hsync.noFailure
      have hcache : (step c s (.write address value)).cache = s.cache.store address value :=
        happ.cache
      refine ⟨⟨?_, hno⟩, fun i hi => by rw [hcache]; exact himg' i hi⟩
      rw [hcache]
      cases hstatus : (write c address value s).1 with
      | failed => exact absurd hstatus hok
      | success => exact (write_stored hop (Nat.le_trans hop hL) heq hsync.stored hstatus).1
      | consolidated =>
        obtain ⟨hptr, flash, hflash⟩ := happ.consolidated hstatus
        simp only [step]
        rw [hflash, hptr]
        exact stored_consolidatedFlash _ flash

/-- The state at first boot, on an erased store. -/
structure FirstBoot (c : Config) (s : State) : Prop where
  erased : ∀ i, i < c.backingSize → s.flash i = 0
  noFailure : s.NoFailure

theorem models_firstBoot {c : Config} {s : State} (h : FirstBoot c s) :
    Models c (init c s).2 (fun _ => 0) :=
  models_init h.noFailure (stored_erased h.erased)

/-- Store and cache stay in step along a run. -/
theorem models_run {c : Config} (hL : c.logicalSize ≤ 2 ^ 19) {s : State} {img : Memory UInt8}
    {ops : List Op} (h : Models c s img) (hops : ∀ op ∈ ops, op.InRange c) :
    Models c (StateMachine.run (step c) s ops) (StateMachine.run specStep img ops) :=
  have hstep : ∀ s img op, Models c s img → op.InRange c →
      Models c (step c s op) (specStep img op) := fun _ _ _ hR hop => models_step hL hR hop
  StateMachine.run_simulation (Models c) hstep h
    (StateMachine.along_of_forall fun op hop _ => hops op hop)

/-- Reads see the array {lit}`img`, and so do the reads behind a boot on the same
store. -/
def Persisted (c : Config) (s : State) (img : Memory UInt8) : Prop :=
  (∀ address length, address + length ≤ c.logicalSize →
    read c address length s = (.success, img.load address length)) ∧
  ∀ t : State, t.NoFailure → t.flash = s.flash →
    (init c t).1 ≠ .failed ∧ ∀ i, i < c.logicalSize → (init c t).2.cache i = img i

theorem Models.persisted {c : Config} {s : State} {img : Memory UInt8} (h : Models c s img) :
    Persisted c s img := by
  obtain ⟨hsync, himg⟩ := h
  refine ⟨fun address length hrange => ?_, fun t hno hflash => ?_⟩
  · rw [read, if_neg (not_lt_of_inRange hrange), Memory.load_congr fun i _ hi => himg i (by omega)]
  · obtain ⟨hstatus, hcache⟩ := init_reads (s := t) hno (hflash ▸ hsync.stored)
    exact ⟨hstatus, fun i hi => (hcache i hi).trans (himg i hi)⟩

/-- After any run that starts with a boot on an erased store, reads and boots see the
array of the abstract run. -/
theorem persistence (c : Config) (hL : c.logicalSize ≤ 2 ^ 19) (s₀ : State)
    (h₀ : FirstBoot c s₀) (ops : List Op) (hops : ∀ op ∈ ops, op.InRange c) :
    Persisted c (StateMachine.run (step c) (init c s₀).2 ops)
      (StateMachine.run specStep (fun _ => 0) ops) :=
  (models_run hL (models_firstBoot h₀) hops).persisted

/-- A store of 48 bytes for 16 bytes of logical data, written two bytes at a time. -/
def smallConfig : Config where
  writeSize := 2
  backingSize := 48
  logicalSize := 16
  writeSize_eq := by decide
  logicalSize_pos := by decide
  logicalSize_le := by decide
  logicalSize_mod := by decide
  backingSize_mod := by decide
  backingSize_addressable := by decide

/-- Power-on with an erased store and no failures to come. -/
def blankState : State where
  cache := fun _ => 0
  writeAddress := 0
  unlocked := false
  flash := fun _ => 0
  answers := fun _ => true
  stack := fun _ => 0
  trace := []

/-- The log of the small store fills up in the middle of the third write. -/
theorem persistence_smallConfig :
    read smallConfig 2 4 (StateMachine.run (step smallConfig) (init smallConfig blankState).2
      [.write 3 [7, 8, 9], .write 4 [0, 0, 1, 0], .write 5 [1, 2, 3, 4, 5, 6, 7]]) =
        (.success, [0, 7, 0, 1]) :=
  (persistence smallConfig (by decide) blankState
    ⟨fun _ _ => rfl, fun _ => rfl⟩ _ (by simp [Op.InRange]; decide)).1 2 4 (by decide)

end WearLeveling
end VialQmk
