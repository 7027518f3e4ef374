import VialQmk.WearLeveling.BootSafety

/-!
# Wear leveling - the flash protocol

A flash driver may ask that a word is written once between two erases, inside the
store, and that writes and erases happen while the store is unlocked.  The trace
says what was asked of the driver.  The protocol is kept as long as no word behind
the write pointer has been written: appends keep that, and so do boots that find
the log as they left it, and erases that succeed.

Main results:

- Definition {lit}`Respects`: the protocol, as a condition on a trace.
- Definition {lit}`StepOk`: the condition on the state before a call, and its failures.
- Theorem {lit}`protocol_step`: a call that meets the condition keeps the protocol.
- Theorem {lit}`protocol_run`: so does a run of such calls from power-on.
- Theorem {lit}`not_respects_failedErase`: an erase that fails leads to a second write of
  a word.
-/

namespace VialQmk
namespace WearLeveling

/-! ## The protocol -/

/-- The addresses of the words written since the last successful erase. -/
def written : List Event → List ℕ
  | [] => []
  | .write address _ true :: trace => address :: written trace
  | .erase true :: _ => []
  | _ :: trace => written trace

/-- A successful unlock has not yet been followed by a lock. -/
def unlockedBy : List Event → Bool
  | [] => false
  | .unlock true :: _ => true
  | .lock _ :: _ => false
  | _ :: trace => unlockedBy trace

/-- Each write is inside the store, to a word not written since the last successful
erase, and each write and each erase happens while the store is unlocked.  The newest
event comes first. -/
def Respects (c : Config) : List Event → Prop
  | [] => True
  | .write address _ _ :: trace =>
    Respects c trace ∧ address < c.backingSize ∧ address ∉ written trace ∧
      unlockedBy trace = true
  | .erase _ :: trace => Respects c trace ∧ unlockedBy trace = true
  | _ :: trace => Respects c trace

/-- The protocol can be checked on a trace. -/
def decideRespects (c : Config) : (trace : List Event) → Decidable (Respects c trace)
  | [] => isTrue trivial
  | .write _ _ _ :: trace =>
    have := decideRespects c trace
    inferInstanceAs (Decidable (_ ∧ _ ∧ _ ∧ _))
  | .erase _ :: trace =>
    have := decideRespects c trace
    inferInstanceAs (Decidable (_ ∧ _))
  | .init _ :: trace | .unlock _ :: trace | .lock _ :: trace | .read _ _ :: trace
  | .memcpy _ _ _ :: trace | .assign _ :: trace => decideRespects c trace

instance (c : Config) : DecidablePred (Respects c) :=
  decideRespects c

/-- The protocol was kept, and only words below {lit}`bound` have been written. -/
structure Kept (c : Config) (bound : ℕ) (trace : List Event) : Prop where
  respects : Respects c trace
  below : ∀ address ∈ written trace, address < bound

/-- An event that neither writes nor erases keeps the protocol. -/
def Event.Quiet : Event → Prop
  | .write _ _ _ | .erase _ => False
  | _ => True

theorem written_quiet {e : Event} {trace : List Event} (h : e.Quiet) :
    written (e :: trace) = written trace := by
  cases e <;> first | rfl | exact absurd h id

theorem Kept.quiet {c : Config} {bound : ℕ} {e : Event} {trace : List Event}
    (h : Kept c bound trace) (he : e.Quiet) : Kept c bound (e :: trace) := by
  refine ⟨?_, by rw [written_quiet he]; exact h.below⟩
  have hrespects := h.respects
  cases e <;> first | exact hrespects | exact absurd he id

theorem Kept.mono {c : Config} {bound bound' : ℕ} {trace : List Event}
    (h : Kept c bound trace) (hle : bound ≤ bound') : Kept c bound' trace :=
  ⟨h.respects, fun address hmem => Nat.lt_of_lt_of_le (h.below address hmem) hle⟩

/-- The store is unlocked, for the code and for the driver. -/
structure Open (c : Config) (bound : ℕ) (s : State) : Prop where
  kept : Kept c bound s.trace
  unlockedBy : unlockedBy s.trace = true
  unlocked : s.unlocked = true

/-! ## Writing while the store is unlocked -/

/-- A write to the first word that has not been written. -/
theorem Open.write {c : Config} {a : ℕ} {s : State} (h : Open c a s)
    (hlt : a < c.backingSize) (w : Word) :
    Open c (a + c.writeSize) (backingStoreWrite a w s).2 := by
  have hnot : a ∉ written s.trace := fun hmem => Nat.lt_irrefl a (h.kept.below a hmem)
  have hbelow : ∀ x ∈ written s.trace, x < a + c.writeSize :=
    fun x hx => Nat.lt_of_lt_of_le (h.kept.below x hx) (Nat.le_add_right _ _)
  cases hw : (s.ask (.write a w)).1 with
  | false =>
    simp only [backingStoreWrite, hw, Bool.false_eq_true, if_false]
    refine ⟨⟨?_, ?_⟩, ?_, h.unlocked⟩
    · rw [ask_trace]
      exact ⟨h.kept.respects, hlt, hnot, h.unlockedBy⟩
    · rw [ask_trace, hw]
      exact hbelow
    · rw [ask_trace, hw]
      exact h.unlockedBy
  | true =>
    simp only [backingStoreWrite, hw, if_true]
    refine ⟨⟨?_, ?_⟩, ?_, h.unlocked⟩
    · show Respects c (s.ask (.write a w)).2.trace
      rw [ask_trace]
      exact ⟨h.kept.respects, hlt, hnot, h.unlockedBy⟩
    · show ∀ x ∈ written (s.ask (.write a w)).2.trace, x < a + c.writeSize
      rw [ask_trace, hw]
      intro x hx
      rcases List.mem_cons.mp hx with rfl | hx
      · exact Nat.lt_add_of_pos_right c.writeSize_pos
      · exact hbelow x hx
    · show WearLeveling.unlockedBy (s.ask (.write a w)).2.trace = true
      rw [ask_trace, hw]
      exact h.unlockedBy

/-- A bulk write to words that have not been written. -/
theorem Open.writeBulk {c : Config} (values : Memory UInt8) (n : ℕ) :
    ∀ {a : ℕ} (offset : ℕ) {s : State}, Open c a s → a + c.writeSize * n ≤ c.backingSize →
      Open c (a + c.writeSize * n) (backingStoreWriteBulk c a values offset n s).2 := by
  induction n with
  | zero => exact fun _ _ h _ => h
  | succ n ih =>
    intro a offset s h hle
    have hW := c.writeSize_pos
    rw [Nat.mul_succ] at hle ⊢
    have hfirst := h.write (by omega) (values.load offset c.writeSize)
    simp only [backingStoreWriteBulk]
    split_ifs with hok
    · have hrest := ih (offset + c.writeSize) hfirst (by omega)
      rwa [Nat.add_assoc, Nat.add_comm c.writeSize] at hrest
    · exact ⟨hfirst.kept.mono (by omega), hfirst.unlockedBy, hfirst.unlocked⟩

/-- The consolidated data and its checksum go to an erased store. -/
theorem Open.writeConsolidated {c : Config} (hB : c.logStart ≤ c.backingSize) {s : State}
    (h : Open c 0 s) : Open c c.logStart (writeConsolidated c s).2 := by
  have hL := logicalSize_words c
  have hS := checksum_words c
  have hunlock : unlock s = (.unchanged, s) := by
    rw [unlock, if_pos h.unlocked]
  have hstart : c.logStart = c.logicalSize + 8 := rfl
  have hdata := Open.writeBulk s.cache (c.logicalSize / c.writeSize) 0 h (by omega)
  rw [Nat.zero_add, hL] at hdata
  simp only [WearLeveling.writeConsolidated, hunlock, reduceCtorEq, if_false]
  split_ifs with hok
  · have hsum := Open.writeBulk (Memory.store (fun _ => 0) 0 (checksum c
      (backingStoreWriteBulk c 0 s.cache 0 (c.logicalSize / c.writeSize) s).2.cache))
      (8 / c.writeSize) 0 hdata (by omega)
    rwa [hS] at hsum
  · exact ⟨hdata.kept.mono (by omega), hdata.unlockedBy, hdata.unlocked⟩

/-- A consolidation leaves nothing written behind the write pointer. -/
theorem Open.consolidateForce {c : Config} (hB : c.logStart ≤ c.backingSize) {s : State}
    (h : Open c s.writeAddress s) :
    Open c (consolidateForce c s).2.writeAddress (consolidateForce c s).2 := by
  cases he : (s.ask .erase).1 with
  | false =>
    simp only [WearLeveling.consolidateForce, backingStoreErase, he, Bool.false_eq_true, if_false]
    refine ⟨⟨?_, ?_⟩, ?_, h.unlocked⟩
    · rw [ask_trace]
      exact ⟨h.kept.respects, h.unlockedBy⟩
    · rw [ask_trace, he]
      exact h.kept.below
    · rw [ask_trace, he]
      exact h.unlockedBy
  | true =>
    simp only [WearLeveling.consolidateForce, backingStoreErase, he, if_true]
    have hopen : Open c 0 { (s.ask .erase).2 with
        flash := (s.ask .erase).2.flash.fill 0 c.backingSize 0 } := by
      refine ⟨⟨?_, ?_⟩, ?_, h.unlocked⟩
      · show Respects c (s.ask .erase).2.trace
        rw [ask_trace]
        exact ⟨h.kept.respects, h.unlockedBy⟩
      · show ∀ x ∈ written (s.ask .erase).2.trace, x < 0
        rw [ask_trace, he]
        intro x hx
        cases hx
      · show WearLeveling.unlockedBy (s.ask .erase).2.trace = true
        rw [ask_trace, he]
        exact h.unlockedBy
    have hdone := hopen.writeConsolidated hB
    exact ⟨hdone.kept, hdone.unlockedBy, hdone.unlocked⟩

theorem Open.consolidateIfNeeded {c : Config} (hB : c.logStart ≤ c.backingSize) {s : State}
    (h : Open c s.writeAddress s) :
    Open c (consolidateIfNeeded c s).2.writeAddress (consolidateIfNeeded c s).2 := by
  rw [WearLeveling.consolidateIfNeeded]
  split_ifs
  · exact h.consolidateForce hB
  · exact h

theorem Open.appendRaw {c : Config} (hB : c.logStart ≤ c.backingSize) {s : State}
    (h : Open c s.writeAddress s) (hlt : s.writeAddress < c.backingSize) (w : Word) :
    Open c (appendRaw c w s).2.writeAddress (appendRaw c w s).2 := by
  obtain ⟨hram, -, -⟩ := backingStoreWrite_spec s.writeAddress w s
  have hwrite := h.write hlt w
  simp only [WearLeveling.appendRaw]
  split_ifs with hok
  · refine Open.consolidateIfNeeded hB ⟨?_, hwrite.unlockedBy, hwrite.unlocked⟩
    show Kept c ((backingStoreWrite s.writeAddress w s).2.writeAddress + c.writeSize) _
    rw [hram.writeAddress]
    exact hwrite.kept
  · -- the word that failed is not written
    simp only [backingStoreWrite] at hok ⊢
    split_ifs at hok ⊢ with hask
    · exact absurd rfl hok
    · have hask' : (s.ask (.write s.writeAddress w)).1 = false := by simpa using hask
      refine ⟨⟨?_, ?_⟩, ?_, h.unlocked⟩
      · rw [ask_trace]
        exact ⟨h.kept.respects, hlt, fun hmem => Nat.lt_irrefl _ (h.kept.below _ hmem),
          h.unlockedBy⟩
      · rw [ask_trace, hask']
        exact h.kept.below
      · rw [ask_trace, hask']
        exact h.unlockedBy

/-- Words are appended only while the log is not full. -/
theorem Open.appendWords {c : Config} (hB : c.logStart ≤ c.backingSize) {ws : List Word}
    (hws : ∀ w ∈ ws, w.length = c.writeSize) :
    ∀ {s : State}, Open c s.writeAddress s → s.writeAddress < c.backingSize →
      Open c (appendWords c ws s).2.writeAddress (appendWords c ws s).2 := by
  induction ws with
  | nil => exact fun h _ => h
  | cons w ws ih =>
    intro s h hlt
    have hfirst := h.appendRaw hB hlt w
    have happ := appendRaw_appended (hws w List.mem_cons_self) s
    simp only [WearLeveling.appendWords]
    generalize WearLeveling.appendRaw c w s = r at *
    obtain ⟨status, s₁⟩ := r
    cases status with
    | failed => exact hfirst
    | consolidated => exact hfirst
    | success =>
      rw [onSuccess_success]
      exact ih (fun w' hw' => hws w' (List.mem_cons_of_mem _ hw')) hfirst
        ((happ.success rfl).2 (by simp))

/-! ## Calls -/

theorem Kept.lock {c : Config} {bound : ℕ} {s : State} (h : Kept c bound s.trace) :
    Kept c bound (lock s).2.trace := by
  simp only [WearLeveling.lock]
  split_ifs
  · exact h.quiet (e := .lock _) trivial
  · exact h.quiet (e := .lock _) trivial
  · exact h

/-- Unlocking a locked store opens it, or fails. -/
theorem Kept.unlock {c : Config} {bound : ℕ} {s : State} (h : Kept c bound s.trace)
    (hlocked : s.unlocked = false) :
    (s.answers 0 = false ∧ (unlock s).1 = .failure ∧ Kept c bound (unlock s).2.trace) ∨
      (s.answers 0 = true ∧ (unlock s).1 = .success ∧ Open c bound (unlock s).2) := by
  have hnot : ¬ s.unlocked = true := by simp [hlocked]
  cases h0 : s.answers 0 with
  | false =>
    left
    have hask : (backingStoreUnlock s).1 = false := h0
    simp only [WearLeveling.unlock, if_neg hnot, hask, Bool.false_eq_true, if_false]
    exact ⟨trivial, trivial, h.quiet (e := .unlock _) trivial⟩
  | true =>
    right
    have hask : (backingStoreUnlock s).1 = true := h0
    have hopen : WearLeveling.unlockedBy (backingStoreUnlock s).2.trace = true := by
      have htrace : (backingStoreUnlock s).2.trace = .unlock true :: s.trace := by
        rw [← hask]
        rfl
      rw [htrace]
      rfl
    simp only [WearLeveling.unlock, if_neg hnot, hask, if_true]
    exact ⟨trivial, trivial, ⟨h.quiet (e := .unlock _) trivial, hopen, rfl⟩⟩

/-- The call is in range and its data differs from the cache. -/
def Changes (c : Config) (address : ℕ) (value : List UInt8) (s : State) : Prop :=
  ¬ c.logicalSize < (address + value.length) % 2 ^ 32 ∧
    s.cache.load address value.length ≠ value

/-- The condition for a boot.  Either it fails before the log playback, and the log is
empty.  Or no primitive fails, one read of the checksum apart, and the playback ends at
an empty word inside the store, with nothing written behind it. -/
def InitOk (c : Config) (s : State) : Prop :=
  (∃ n, n ≤ c.logicalSize / c.writeSize ∧ s.answers n = false) ∧
      (∀ x ∈ written s.trace, x < c.logStart) ∨
    (∃ n, c.logicalSize / c.writeSize < n ∧
      n ≤ c.logicalSize / c.writeSize + 8 / c.writeSize ∧ ∀ m, m ≠ n → s.answers m = true) ∧
      ∃ a, Boundary c s.flash a ∧ a < c.backingSize ∧ (entryAt s.flash a).IsEmpty c ∧
        ∀ x ∈ written s.trace, x < a

/-- The condition on the state before a call and on the failures in it.  A write that
changes something finds the store locked, as far as the code knows, and room in the
log.  An erase finds the store locked, and succeeds or has no log to erase. -/
def StepOk (c : Config) (s : State) : Op → Prop
  | .init => InitOk c s
  | .erase => s.unlocked = false ∧ (s.answers 0 = true →
      s.answers 1 = true ∨ ∀ x ∈ written s.trace, x < c.logStart)
  | .write address value => Changes c address value s →
      s.unlocked = false ∧ (s.answers 0 = true → s.writeAddress < c.backingSize)

theorem write_kept {c : Config} (hB : c.logStart ≤ c.backingSize) {address : ℕ}
    {value : List UInt8} {s : State} (h : Kept c s.writeAddress s.trace)
    (hok : StepOk c s (.write address value)) :
    Kept c (write c address value s).2.writeAddress (write c address value s).2.trace := by
  simp only [write]
  by_cases hrange : c.logicalSize < (address + value.length) % 2 ^ 32
  · rw [if_pos hrange]
    exact h
  rw [if_neg hrange]
  by_cases heq : s.cache.load address value.length = value
  · rw [if_pos heq]
    exact h
  rw [if_neg heq]
  set s₀ : State := { s with cache := s.cache.store address value } with hs₀
  obtain ⟨hlocked, hroom⟩ := hok ⟨hrange, heq⟩
  have hptr : (unlock s₀).2.writeAddress = s.writeAddress := (unlock_sameRam s₀).writeAddress
  have h₀ : Kept c s.writeAddress s₀.trace := h
  rcases h₀.unlock hlocked with ⟨-, hfail, hkept⟩ | ⟨h0, hsucc, hopen⟩
  · rw [if_pos hfail]
    show Kept c (lock (unlock s₀).2).2.writeAddress (lock (unlock s₀).2).2.trace
    rw [(lock_sameRam _).writeAddress, hptr]
    exact hkept.lock
  · have hraw : Open c (onSuccess (writeRaw c address value (unlock s₀).2)
        (consolidateIfNeeded c)).2.writeAddress (onSuccess (writeRaw c address value
          (unlock s₀).2) (consolidateIfNeeded c)).2 := by
      rw [← hptr] at hopen
      have hws : ∀ w ∈ (encode c address value).flatMap (Record.words c),
          w.length = c.writeSize := fun w hw => words_length_of_mem hw
      have hwords := Open.appendWords hB hws hopen (by rw [hptr]; exact hroom h0)
      rw [← writeRaw_eq] at hwords
      generalize writeRaw c address value (unlock s₀).2 = r at *
      obtain ⟨status, s₁⟩ := r
      cases status with
      | failed => exact hwords
      | consolidated => exact hwords
      | success =>
        rw [onSuccess_success]
        exact hwords.consolidateIfNeeded hB
    rw [if_neg (by rw [hsucc]; simp), if_pos hsucc]
    show Kept c (lock _).2.writeAddress (lock _).2.trace
    rw [(lock_sameRam _).writeAddress]
    exact hraw.kept.lock

theorem erase_kept {c : Config} {s : State} (h : Kept c s.writeAddress s.trace)
    (hok : StepOk c s .erase) :
    Kept c (erase c s).2.writeAddress (erase c s).2.trace := by
  obtain ⟨hlocked, herase⟩ := hok
  simp only [erase]
  rcases h.unlock hlocked with ⟨-, hfail, hkept⟩ | ⟨h0, hsucc, hopen⟩
  · rw [if_pos hfail]
    show Kept c (lock (unlock s).2).2.writeAddress (lock (unlock s).2).2.trace
    rw [(lock_sameRam _).writeAddress, (unlock_sameRam s).writeAddress]
    exact hkept.lock
  · rw [if_neg (by rw [hsucc]; simp), if_pos hsucc]
    show Kept c (lock _).2.writeAddress (lock _).2.trace
    rw [(lock_sameRam _).writeAddress]
    refine Kept.lock ?_
    show Kept c c.logStart (backingStoreErase c (unlock s).2).2.trace
    have hwritten : written (unlock s).2.trace = written s.trace := by
      have hnot : ¬ s.unlocked = true := by simp [hlocked]
      simp only [unlock, if_neg hnot]
      split_ifs <;> exact written_quiet trivial
    have hanswer : ((unlock s).2.ask .erase).1 = s.answers 1 := by
      have hnot : ¬ s.unlocked = true := by simp [hlocked]
      have hask : (backingStoreUnlock s).1 = true := h0
      simp only [unlock, if_neg hnot, hask, if_true]
      rfl
    have hrespects : Respects c ((unlock s).2.ask .erase).2.trace := by
      rw [ask_trace]
      exact ⟨hopen.kept.respects, hopen.unlockedBy⟩
    cases h1 : s.answers 1 with
    | true =>
      simp only [backingStoreErase, hanswer, h1, if_true]
      refine ⟨hrespects, ?_⟩
      show ∀ x ∈ written ((unlock s).2.ask .erase).2.trace, x < c.logStart
      rw [ask_trace, hanswer, h1]
      intro x hx
      cases hx
    | false =>
      simp only [backingStoreErase, hanswer, h1, Bool.false_eq_true, if_false]
      refine ⟨hrespects, ?_⟩
      rw [ask_trace, hanswer, h1]
      show ∀ x ∈ written (unlock s).2.trace, x < c.logStart
      rw [hwritten]
      rcases herase h0 with h1' | hempty
      · exact absurd h1' (by simp [h1])
      · exact hempty

/-! ## Boots -/

theorem Kept.readBulk {c : Config} {bound : ℕ} (n : ℕ) :
    ∀ (address : ℕ) (target : Memory UInt8) (offset : ℕ) {s : State}, Kept c bound s.trace →
      Kept c bound (backingStoreReadBulk c address target offset n s).2.2.trace := by
  induction n with
  | zero => exact fun _ _ _ _ h => h
  | succ n ih =>
    intro address target offset s h
    have hread : Kept c bound (backingStoreRead c address target offset s).2.2.trace := by
      simp only [backingStoreRead]
      split_ifs <;> exact h.quiet (e := .read _ _) trivial
    simp only [backingStoreReadBulk]
    split_ifs
    · exact ih _ _ _ hread
    · exact hread

theorem Kept.readConsolidated {c : Config} {bound : ℕ} {s : State} (h : Kept c bound s.trace) :
    Kept c bound (readConsolidated c s).2.trace := by
  have hdata := Kept.readBulk (c.logicalSize / c.writeSize) 0 s.cache 0 h
  simp only [WearLeveling.readConsolidated]
  split_ifs
  · exact Kept.readBulk _ _ _ _ hdata
  · exact Kept.readBulk _ _ _ _ hdata
  · exact hdata

/-- A bulk read fails when one of its reads does. -/
theorem readBulk_fails {c : Config} (n : ℕ) :
    ∀ {address : ℕ} {target : Memory UInt8} {offset k : ℕ} {s : State}, k < n →
      s.answers k = false → (backingStoreReadBulk c address target offset n s).1 = false := by
  induction n with
  | zero => exact fun hk _ => absurd hk (Nat.not_lt_zero _)
  | succ n ih =>
    intro address target offset k s hk hanswer
    cases h0 : (s.ask (.read address)).1 with
    | false => simp [backingStoreReadBulk, backingStoreRead, h0]
    | true =>
      cases k with
      | zero => exact absurd (hanswer.symm.trans h0) (by simp)
      | succ k =>
        simp only [backingStoreReadBulk, backingStoreRead, h0, if_true]
        exact ih (k := k) (by omega) hanswer

/-- A bulk read whose reads succeed takes one answer for each. -/
theorem readBulk_succeeds {c : Config} (n : ℕ) :
    ∀ (address : ℕ) (target : Memory UInt8) (offset : ℕ) {s : State},
      (∀ k, k < n → s.answers k = true) →
      (backingStoreReadBulk c address target offset n s).1 = true ∧
        ∀ m, (backingStoreReadBulk c address target offset n s).2.2.answers m =
          s.answers (m + n) := by
  induction n with
  | zero => exact fun _ _ _ _ _ => ⟨rfl, fun _ => rfl⟩
  | succ n ih =>
    intro address target offset s hanswers
    have h0 : (s.ask (.read address)).1 = true := hanswers 0 (Nat.succ_pos n)
    simp only [backingStoreReadBulk, backingStoreRead, h0, if_true]
    obtain ⟨hok, hrest⟩ := ih _ _ _ (s := (s.ask (.read address)).2)
      fun k hk => hanswers (k + 1) (Nat.succ_lt_succ hk)
    exact ⟨hok, hrest⟩

/-- Behind the only failure there is, no primitive fails. -/
theorem readBulk_noFailure {c : Config} (n : ℕ) :
    ∀ (address : ℕ) (target : Memory UInt8) (offset : ℕ) {k : ℕ} {s : State}, k < n →
      (∀ m, m ≠ k → s.answers m = true) →
      (backingStoreReadBulk c address target offset n s).2.2.NoFailure := by
  induction n with
  | zero => exact fun _ _ _ _ _ hk _ => absurd hk (Nat.not_lt_zero _)
  | succ n ih =>
    intro address target offset k s hk hanswers
    cases k with
    | zero =>
      have hno : (s.ask (.read address)).2.NoFailure := fun m => hanswers (m + 1) (by omega)
      cases h0 : (s.ask (.read address)).1 with
      | false =>
        simp only [backingStoreReadBulk, backingStoreRead, h0, Bool.false_eq_true, if_false]
        exact hno
      | true =>
        simp only [backingStoreReadBulk, backingStoreRead, h0, if_true]
        exact (backingStoreReadBulk_spec c n _ _ _ _).1.noFailure hno
    | succ k =>
      have h0 : (s.ask (.read address)).1 = true := hanswers 0 (by omega)
      simp only [backingStoreReadBulk, backingStoreRead, h0, if_true]
      exact ih _ _ _ (s := (s.ask (.read address)).2) (Nat.lt_of_succ_lt_succ hk)
        fun m hm => hanswers (m + 1) (by omega)

/-- The boot goes on when a read of the checksum fails. -/
theorem readConsolidated_checksum {c : Config} {s : State} {n : ℕ}
    (hle : c.logicalSize / c.writeSize ≤ n)
    (hlt : n < c.logicalSize / c.writeSize + 8 / c.writeSize)
    (hanswers : ∀ m, m ≠ n → s.answers m = true) (hptr : s.writeAddress = c.logStart) :
    (readConsolidated c s).1 = .success ∧ (readConsolidated c s).2.flash = s.flash ∧
      (readConsolidated c s).2.writeAddress = c.logStart ∧
      (readConsolidated c s).2.NoFailure := by
  obtain ⟨hram, hflash, -⟩ :=
    backingStoreReadBulk_spec c (c.logicalSize / c.writeSize) 0 s.cache 0 s
  obtain ⟨hok, hrest⟩ := readBulk_succeeds (c := c) (c.logicalSize / c.writeSize) 0 s.cache 0
    (s := s) fun k hk => hanswers k (by omega)
  simp only [readConsolidated, hok, if_true]
  generalize backingStoreReadBulk c 0 s.cache 0 (c.logicalSize / c.writeSize) s = r at *
  obtain ⟨hram', hflash', -⟩ := backingStoreReadBulk_spec c (8 / c.writeSize) c.logicalSize
    r.2.2.stack 0 { r.2.2 with cache := r.2.1 }
  have hno := readBulk_noFailure (c := c) (8 / c.writeSize) c.logicalSize r.2.2.stack 0
    (k := n - c.logicalSize / c.writeSize) (s := { r.2.2 with cache := r.2.1 }) (by omega)
    fun m hm => (hrest m).trans (hanswers _ (by omega))
  split_ifs
  · exact ⟨rfl, hflash'.trans hflash, hram'.writeAddress.trans (hram.writeAddress.trans hptr), hno⟩
  · exact ⟨rfl, hflash'.trans hflash, rfl, hno⟩

/-- The log playback neither writes nor erases. -/
theorem Kept.playbackLoop {c : Config} {bound : ℕ} {p : Playback}
    (h : Kept c bound p.state.trace) : Kept c bound (playbackLoop c p).state.trace := by
  refine BoundedLoop.run_invariant (fun p : Playback => Kept c bound p.state.trace) (fun p hp _ => ?_)
    c.backingSize h
  refine RoundRule.playbackBody p.state.flash p.address
    (fun n q => q.state.flash = p.state.flash ∧ q.address = p.address + n ∧
      Kept c bound q.state.trace) (fun q => Kept c bound q.state.trace)
    { place := fun hq => ⟨hq.1, hq.2.1⟩
      next := fun hq _ _ => ⟨hq.1, by rw [hq.2.1, Nat.add_assoc],
        hq.2.2.quiet (e := .read _ _) trivial⟩
      fail := fun hq _ _ => hq.2.2.quiet (e := .read _ _) trivial
      empty := fun hq _ _ => hq.2.2.quiet (e := .read _ _) trivial
      reject := fun hq _ _ _ => hq.2.2
      copy := fun _ _ _ hq => hq.2.2.quiet (e := .memcpy _ _ _) trivial
      optimized64 := fun _ _ _ hq => hq.2.2.quiet (e := .assign _) trivial
      word01 := fun _ _ _ hq =>
        (hq.2.2.quiet (e := .assign _) trivial).quiet (e := .assign _) trivial }
    ⟨rfl, rfl, hp⟩

/-- Without failures the playback stops at the first empty word behind the entries. -/
theorem Boundary.played {c : Config} {flash cache : Memory UInt8} {a : ℕ} {p : Playback}
    (h : Boundary c flash a) (hlt : a < c.backingSize) (hempty : (entryAt flash a).IsEmpty c)
    (hp : Playing flash cache c.logStart p) :
    ∃ cache', Played flash cache' a (WearLeveling.playbackLoop c p) := by
  obtain ⟨n, cache', hn, hrun⟩ := h.reached hp
  have hstart : 8 ≤ c.logStart := Nat.le_add_left 8 c.logicalSize
  exact ⟨cache', played_of_run hrun (by omega) hlt hempty⟩

theorem init_kept {c : Config} {s : State} (h : Kept c s.writeAddress s.trace)
    (hok : StepOk c s .init) : Kept c (init c s).2.writeAddress (init c s).2.trace := by
  have hkept : ∀ bound, (∀ x ∈ written s.trace, x < bound) →
      Kept c bound (backingStoreInit (clearCache c s)).2.trace := fun bound hbelow =>
    Kept.quiet (e := .init _) ⟨h.respects, hbelow⟩ trivial
  rcases hok with ⟨⟨n, hn, hanswer⟩, hbelow⟩ | ⟨⟨n, hle, hn, hno⟩, a, ha, hlt, hempty, hbelow⟩
  · have hfail : (init c s).2.writeAddress = c.logStart ∧
        Kept c c.logStart (init c s).2.trace := by
      simp only [init]
      cases h0 : (backingStoreInit (clearCache c s)).1 with
      | false =>
        simp only [Bool.false_eq_true, if_false]
        exact ⟨rfl, hkept _ hbelow⟩
      | true =>
        have hpos : n ≠ 0 := by
          rintro rfl
          exact absurd (hanswer.symm.trans h0) (by simp)
        obtain ⟨k, rfl⟩ := Nat.exists_eq_succ_of_ne_zero hpos
        have hread : (backingStoreReadBulk c 0 (backingStoreInit (clearCache c s)).2.cache 0
            (c.logicalSize / c.writeSize) (backingStoreInit (clearCache c s)).2).1 = false :=
          readBulk_fails _ (k := k) (by omega) hanswer
        have hstatus : (readConsolidated c (backingStoreInit (clearCache c s)).2).1 =
            .failed := by
          simp [readConsolidated, hread]
        simp only [if_true, hstatus]
        exact ⟨rfl, (hkept _ hbelow).readConsolidated⟩
    rw [hfail.1]
    exact hfail.2
  · have hpos : 0 < n := Nat.lt_of_le_of_lt (Nat.zero_le _) hle
    obtain ⟨hstatus, hflash, hptr, hno'⟩ := readConsolidated_checksum (c := c) (n := n - 1)
      (s := (backingStoreInit (clearCache c s)).2) (by omega) (by omega)
      (fun m hm => hno (m + 1) (by omega)) rfl
    have hread := (hkept a hbelow).readConsolidated
    have h0 : (backingStoreInit (clearCache c s)).1 = true := hno 0 (by omega)
    simp only [init, h0, if_true, hstatus, reduceCtorEq, if_false]
    generalize readConsolidated c (backingStoreInit (clearCache c s)).2 = r at *
    obtain ⟨cache', hplayed⟩ := ha.played hlt hempty (p := playbackStart c r.2)
      ⟨rfl, rfl, rfl, hflash, rfl, hno'⟩
    have hloop : Kept c a (playbackLoop c (playbackStart c r.2)).state.trace :=
      Kept.playbackLoop (p := playbackStart c r.2) hread
    simp only [playbackLog, hplayed.status, consolidateIfNeeded, hplayed.address,
      if_neg (Nat.not_le_of_lt hlt), reduceCtorEq, if_false]
    exact hloop

/-! ## Runs -/

/-- A call with the answers its primitives get. -/
abbrev Step := Op × (ℕ → Bool)

/-- The state in which a call starts. -/
def beforeStep (s : State) (i : Step) : State :=
  { s with answers := i.2 }

/-- The state after a call. -/
def afterStep (c : Config) (s : State) (i : Step) : State :=
  step c (beforeStep s i) i.1

/-- A call that meets the condition keeps the protocol, and leaves nothing written behind
the write pointer. -/
theorem protocol_step {c : Config} (hB : c.logStart ≤ c.backingSize) {s : State} {i : Step}
    (h : Kept c s.writeAddress s.trace) (hok : StepOk c (beforeStep s i) i.1) :
    Kept c (afterStep c s i).writeAddress (afterStep c s i).trace := by
  obtain ⟨op, answers⟩ := i
  cases op with
  | init => exact init_kept h hok
  | erase => exact erase_kept h hok
  | write address value => exact write_kept hB h hok

/-- Power-on with an erased store: nothing has been asked of the driver yet. -/
structure PowerOn (c : Config) (s : State) : Prop where
  erased : ∀ i, i < c.backingSize → s.flash i = 0
  trace : s.trace = []

/-- A run of calls that meet the condition keeps the protocol. -/
theorem protocol_run (c : Config) (hB : c.logicalSize + 8 ≤ c.backingSize) (s₀ : State)
    (h₀ : PowerOn c s₀) (steps : List Step)
    (hok : StateMachine.Along (afterStep c) (fun s i => StepOk c (beforeStep s i) i.1) s₀
      steps) :
    Respects c (StateMachine.run (afterStep c) s₀ steps).trace := by
  have hstart : Kept c s₀.writeAddress s₀.trace := by
    rw [h₀.trace]
    exact ⟨trivial, fun x hx => by cases hx⟩
  exact (StateMachine.run_invariant (fun s => Kept c s.writeAddress s.trace)
    (fun _ _ h hok => protocol_step hB h hok) hstart hok).respects

/-- A first boot and a first write. -/
theorem protocol_run_firstWrite :
    Respects smallConfig (StateMachine.run (afterStep smallConfig) blankState
      [(.init, fun _ => true), (.write 3 [7], fun _ => true)]).trace := by
  have hempty : (entryAt blankState.flash smallConfig.logStart).IsEmpty smallConfig :=
    fun _ _ => rfl
  have hboot : StepOk smallConfig (beforeStep blankState (.init, fun _ => true)) .init :=
    Or.inr ⟨⟨9, by decide, by decide, fun _ _ => rfl⟩, smallConfig.logStart,
      Boundary.logStart, by decide, hempty, fun x hx => by cases hx⟩
  refine protocol_run smallConfig (by decide) blankState ⟨fun _ _ => rfl, rfl⟩ _
    ⟨hboot, fun _ => ⟨by decide +kernel, fun _ => by decide +kernel⟩, trivial⟩

/-- The failed erase leaves the store as it was, with the write pointer back at the start
of the log: the next write goes to a word that has been written. -/
theorem not_respects_failedErase :
    ¬ Respects smallConfig (StateMachine.run (afterStep smallConfig) blankState
      [(.init, fun _ => true), (.write 0 [5], fun _ => true), (.erase, fun n => n ≠ 1),
        (.write 1 [7], fun _ => true)]).trace := by
  decide +kernel

end WearLeveling
end VialQmk
