import VialQmk.WearLeveling.PowerLoss

/-!
# Wear leveling - what failed calls leave behind

A write changes the cache before it touches the store.  After a failure the cache is ahead of the
store, and the log may end inside of an entry.  A ledger of the calls so far says which bytes the
store may not hold and whether the log ends with a complete entry.

Main results:

- Definition {lit}`Ledger.after`: the ledger after a call.
- Theorem {lit}`writeLog_failed`: how far a failed call has come.
- Theorem {lit}`Tracks.failure`: bytes that are not in the ledger are in the store after a failed
  call.
- Theorem {lit}`Tracks.logged`: and after one that succeeds.
-/

namespace VialQmk
namespace WearLeveling

/-- A call of {lit}`wear_leveling_write` with the answers its primitives get. -/
structure Call where
  address : ℕ
  value : List UInt8
  answers : ℕ → Bool

namespace Call

variable (c : Config) (s : State) (call : Call)

/-- The range of the call stays inside the logical data. -/
def InRange : Prop :=
  call.address + call.value.length ≤ c.logicalSize

/-- The state in which the call starts. -/
def before : State :=
  { s with answers := call.answers }

/-- The result of the call. -/
def result : Status × State :=
  write c call.address call.value (call.before s)

/-- The state after the call. -/
def step : State :=
  (call.result c s).2

/-- The call up to its lock, if its data are not in the cache. -/
def logged : Status × State :=
  writeLog c call.address call.value (call.before s)

/-- The byte is one of the call. -/
def covers (i : ℕ) : Bool :=
  call.address ≤ i && i < call.address + call.value.length

end Call

/-! ## The ledger -/

/-- The bytes whose cached values the store may not hold, and whether the log ends with a complete
entry. -/
structure Ledger where
  unsaved : ℕ → Bool
  whole : Bool

/-- Everything is in the store. -/
def Ledger.clear : Ledger :=
  ⟨fun _ => false, true⟩

/-- The successful erases so far. -/
def erases (s : State) : ℕ :=
  s.trace.count (.erase true)

/-- The byte is one of the entry. -/
def Entry.covers (e : Entry) (i : ℕ) : Bool :=
  e.address ≤ i && i < e.address + e.data.length

/-- The ledger after a failure.  If the store has been erased everything may be lost.  Otherwise
the bytes that the call has changed are unsaved, but for those of entries that got into the log.
The last entry may be cut: it is read with its missing words as zero, unless it is behind another
one that is cut or reaches over the end of the store. -/
def Ledger.afterFailure (c : Config) (s : State) (call : Call) (b : Ledger) : Ledger :=
  let s' := (call.logged c s).2
  let changed i := b.unsaved i || s.cache.store call.address call.value i != s.cache i
  let words := (s'.writeAddress - s.writeAddress) / c.writeSize
  let records := encode c call.address call.value
  let cut := cutEntries c records words
  let torn := tornOf c records words
  if erases s' ≠ erases s then ⟨fun _ => true, true⟩
  else if words = 0 then ⟨changed, b.whole⟩
  else if b.whole = true ∧ call.address + call.value.length ≤ 2 ^ 19 ∧
      s.writeAddress + sizeOf cut ≤ c.backingSize then
    ⟨fun i => if cut.any (Entry.covers · i) then torn.any (Entry.covers · i) else changed i,
      torn.isNone⟩
  else ⟨fun _ => true, false⟩

/-- The ledger after a call. -/
def Ledger.after (c : Config) (s : State) (call : Call) (b : Ledger) : Ledger :=
  if s.cache.load call.address call.value.length = call.value then b
  else
    match (call.logged c s).1 with
    | .failed => b.afterFailure c s call
    | .success => ⟨fun i => b.unsaved i && !call.covers i, b.whole⟩
    | .consolidated => Ledger.clear

/-! ## Failures -/

/-- How an append of words has failed: the first ones are in the log, or the store has been
erased. -/
inductive Failed (c : Config) (ws : List Word) (s s' : State) : Prop
  | broken (k : ℕ) (hk : k ≤ ws.length)
    (flash : s'.flash = s.flash.store s.writeAddress (ws.take k).flatten)
    (writeAddress : s'.writeAddress = s.writeAddress + (ws.take k).flatten.length)
    (erases : erases s' = erases s)
  | erased (erases : erases s < erases s') (writeAddress : s'.writeAddress = c.logStart)

/-- Only an erase counts. -/
theorem erases_ask (s : State) (event : Bool → Event) (h : ∀ ok, event ok ≠ .erase true) :
    erases (s.ask event).2 = erases s := by
  unfold erases
  rw [ask_trace]
  exact List.count_cons_of_ne (h _)

theorem erases_unlock (s : State) : erases (unlock s).2 = erases s := by
  have hask := erases_ask s .unlock (by simp)
  simp only [unlock]
  split_ifs
  · rfl
  · exact hask
  · exact hask

theorem erases_lock (s : State) : erases (lock s).2 = erases s := by
  have hask := erases_ask s .lock (by simp)
  simp only [lock]
  split_ifs
  · exact hask
  · exact hask
  · rfl

theorem erases_backingStoreWrite (address : ℕ) (value : Word) (s : State) :
    erases (backingStoreWrite address value s).2 = erases s := by
  have hask := erases_ask s (.write address value) (by simp)
  simp only [backingStoreWrite]
  split_ifs
  · exact hask
  · exact hask

theorem erases_backingStoreWriteBulk (c : Config) (values : Memory UInt8) (n : ℕ) :
    ∀ (address offset : ℕ) (s : State),
      erases (backingStoreWriteBulk c address values offset n s).2 = erases s := by
  induction n with
  | zero => exact fun _ _ _ => rfl
  | succ n ih =>
    intro address offset s
    have hword := erases_backingStoreWrite address (values.load offset c.writeSize) s
    simp only [backingStoreWriteBulk]
    split_ifs
    · rw [ih, hword]
    · exact hword

theorem erases_writeConsolidated (c : Config) (s : State) :
    erases (writeConsolidated c s).2 = erases s := by
  simp only [writeConsolidated]
  split_ifs <;> simp only [erases_lock, erases_backingStoreWriteBulk, erases_unlock]

/-- A consolidation stops in front of the erase, or goes on behind it. -/
theorem consolidateForce_failed (c : Config) (s : State) :
    Failed c [] s (consolidateForce c s).2 := by
  cases hok : (s.ask .erase).1 with
  | false =>
    simp only [consolidateForce, backingStoreErase, hok, Bool.false_eq_true, if_false]
    refine .broken 0 (Nat.le_refl 0) (by simp) (by simp) ?_
    unfold erases
    rw [ask_trace, hok]
    exact List.count_cons_of_ne (by simp)
  | true =>
    simp only [consolidateForce, backingStoreErase, hok, if_true]
    refine .erased ?_ rfl
    change _ < erases (writeConsolidated c _).2
    rw [erases_writeConsolidated]
    unfold erases
    rw [ask_trace, hok, List.count_cons_self]
    exact Nat.lt_succ_self _

theorem consolidateIfNeeded_failed {c : Config} {s : State}
    (h : (consolidateIfNeeded c s).1 = .failed) : Failed c [] s (consolidateIfNeeded c s).2 := by
  unfold consolidateIfNeeded at h ⊢
  split_ifs at h ⊢
  exact consolidateForce_failed c s

/-- A consolidation does not return success, so nothing has been erased. -/
theorem erases_consolidateIfNeeded {c : Config} {s : State}
    (h : (consolidateIfNeeded c s).1 = .success) : (consolidateIfNeeded c s).2 = s := by
  unfold consolidateIfNeeded at h ⊢
  split_ifs at h ⊢
  · obtain ⟨-, ⟨hs, -⟩ | ⟨hs, -⟩ | ⟨hs, -⟩, -⟩ := consolidateForce_spec c s <;>
      exact absurd (hs.symm.trans h) (by simp)
  · rfl

/-- Words in front of an append that has failed. -/
theorem Failed.prepend {c : Config} {ws' : List Word} {s s₁ s' : State}
    (h : Failed c ws' s₁ s') (ws : List Word)
    (hflash : s₁.flash = s.flash.store s.writeAddress ws.flatten)
    (hptr : s₁.writeAddress = s.writeAddress + ws.flatten.length) (herases : erases s₁ = erases s) :
    Failed c (ws ++ ws') s s' := by
  cases h with
  | erased more ptr => exact .erased (herases ▸ more) ptr
  | broken k hk flash ptr same =>
    have htake : (ws ++ ws').take (ws.length + k) = ws ++ ws'.take k := List.take_length_add_append k
    refine .broken (ws.length + k) (by rw [List.length_append]; omega) ?_ ?_ (same.trans herases)
    · rw [htake, flash, hflash, hptr, List.flatten_append, Memory.store_append]
    · rw [htake, ptr, hptr, List.flatten_append, List.length_append, Nat.add_assoc]

/-- Words behind an append that has failed. -/
theorem Failed.append {c : Config} {ws : List Word} {s s' : State} (h : Failed c ws s s')
    (ws' : List Word) : Failed c (ws ++ ws') s s' := by
  cases h with
  | erased more ptr => exact .erased more ptr
  | broken k hk flash ptr same =>
    have htake : (ws ++ ws').take k = ws.take k := List.take_append_of_le_length hk
    exact .broken k (by rw [List.length_append]; omega) (by rw [htake]; exact flash)
      (by rw [htake]; exact ptr) same

/-- A state with the same memory may start an append. -/
theorem Failed.of_same {c : Config} {ws : List Word} {s s₁ s' : State}
    (h : Failed c ws s₁ s') (hflash : s₁.flash = s.flash)
    (hptr : s₁.writeAddress = s.writeAddress) (herases : erases s₁ = erases s) :
    Failed c ws s s' := by
  cases h with
  | erased more ptr => exact .erased (herases ▸ more) ptr
  | broken k hk flash ptr same =>
    exact .broken k hk (by rw [flash, hflash, hptr]) (by rw [ptr, hptr]) (same.trans herases)

/-- A word that does not get to the log, or fills it. -/
theorem appendRaw_failed {c : Config} {w : Word} (hw : w.length = c.writeSize) {s : State}
    (h : (appendRaw c w s).1 = .failed) : Failed c [w] s (appendRaw c w s).2 := by
  obtain ⟨hram, hflash, -⟩ := backingStoreWrite_spec s.writeAddress w s
  have herases := erases_backingStoreWrite s.writeAddress w s
  cases hok : (backingStoreWrite s.writeAddress w s).1 with
  | false =>
    simp only [appendRaw, hok, Bool.false_eq_true, if_false] at h ⊢
    simp only [hok, Bool.false_eq_true, if_false] at hflash
    exact .broken 0 (Nat.zero_le _) (by simpa using hflash) (by simpa using hram.writeAddress) herases
  | true =>
    simp only [appendRaw, hok, if_true] at h ⊢
    simp only [hok, if_true] at hflash
    refine (consolidateIfNeeded_failed h).prepend [w] ?_ ?_ herases
    · simpa using hflash
    · simp [hram.writeAddress, hw]

/-- A word that gets to the log without a consolidation. -/
theorem erases_appendRaw {c : Config} {w : Word} {s : State}
    (h : (appendRaw c w s).1 = .success) : erases (appendRaw c w s).2 = erases s := by
  have herases := erases_backingStoreWrite s.writeAddress w s
  cases hok : (backingStoreWrite s.writeAddress w s).1 with
  | false => simp [appendRaw, hok] at h
  | true =>
    simp only [appendRaw, hok, if_true] at h ⊢
    rw [erases_consolidateIfNeeded h]
    exact herases

/-- How an append of words fails, by induction on the words. -/
theorem appendWords_failed {c : Config} {ws : List Word}
    (hws : ∀ w ∈ ws, w.length = c.writeSize) {s : State}
    (h : (appendWords c ws s).1 = .failed) : Failed c ws s (appendWords c ws s).2 := by
  induction ws generalizing s with
  | nil => exact absurd h (by simp [appendWords])
  | cons w ws ih =>
    have hw := hws w List.mem_cons_self
    have hfirst := appendRaw_failed (c := c) (s := s) hw
    have happ := appendRaw_appended hw s
    have herases := erases_appendRaw (c := c) (w := w) (s := s)
    simp only [appendWords] at h ⊢
    generalize appendRaw c w s = r at *
    obtain ⟨status, s₁⟩ := r
    cases status with
    | failed => exact (hfirst rfl).append ws
    | consolidated => exact absurd h (by simp [onSuccess])
    | success =>
      obtain ⟨⟨hflash, hptr⟩, -⟩ := happ.success rfl
      have hrest := ih (fun w' hw' => hws w' (List.mem_cons_of_mem w hw')) h
      exact hrest.prepend [w] hflash hptr (herases rfl)

/-- An append that succeeds erases nothing. -/
theorem erases_appendWords {c : Config} {ws : List Word} {s : State}
    (h : (appendWords c ws s).1 = .success) : erases (appendWords c ws s).2 = erases s := by
  induction ws generalizing s with
  | nil => rfl
  | cons w ws ih =>
    have herases := erases_appendRaw (c := c) (w := w) (s := s)
    simp only [appendWords] at h ⊢
    generalize appendRaw c w s = r at *
    obtain ⟨status, s₁⟩ := r
    cases status with
    | failed => exact absurd h (by simp [onSuccess])
    | consolidated => exact absurd h (by simp [onSuccess])
    | success => exact (ih h).trans (herases rfl)

/-- How a write fails up to its lock. -/
theorem writeLog_failed {c : Config} {address : ℕ} {value : List UInt8} {s : State}
    (h : (writeLog c address value s).1 = .failed) :
    Failed c ((encode c address value).flatMap (Record.words c)) s
      (writeLog c address value s).2 := by
  set s₀ : State := { s with cache := s.cache.store address value } with hs₀
  have hram := unlock_sameRam s₀
  have hflash := unlock_flash s₀
  have herases := erases_unlock s₀
  have hws : ∀ w ∈ (encode c address value).flatMap (Record.words c),
      w.length = c.writeSize := fun w hw => words_length_of_mem hw
  have happ := appendWords_spec hws (unlock s₀).2
  simp only [writeLog, ← hs₀] at h ⊢
  by_cases hfail : (unlock s₀).1 = .failure
  · rw [if_pos hfail]
    exact .broken 0 (Nat.zero_le _) (by simpa using hflash) (by simpa using hram.writeAddress)
      herases
  · rw [if_neg hfail, writeRaw_eq] at h ⊢
    have hwords := appendWords_failed (c := c) hws (s := (unlock s₀).2)
    generalize (encode c address value).flatMap (Record.words c) = words at *
    have hnone := @erases_appendWords c words (unlock s₀).2
    generalize appendWords c words (unlock s₀).2 = r at *
    obtain ⟨status, s₁⟩ := r
    cases status with
    | failed => exact (hwords rfl).of_same hflash hram.writeAddress herases
    | consolidated => exact absurd h (by simp [onSuccess])
    | success =>
      obtain ⟨⟨hflash₁, hptr₁⟩, -⟩ := happ.success rfl
      have hrest := (consolidateIfNeeded_failed h).prepend _ hflash₁ hptr₁ (hnone rfl)
      rw [List.append_nil] at hrest
      exact hrest.of_same hflash hram.writeAddress herases

/-! ## Bytes of entries -/

theorem Entry.apply_of_not_covers {e : Entry} {i : ℕ} (h : e.covers i = false)
    (m : Memory UInt8) : e.apply m i = m i := by
  by_cases hlt : i < e.address
  · exact Memory.store_of_lt hlt
  · refine Memory.store_of_ge ?_
    by_contra hin
    rw [covers, Bool.and_eq_false_iff, decide_eq_false_iff_not, decide_eq_false_iff_not] at h
    omega

/-- An entry that holds a part of the data leaves its bytes. -/
theorem Entry.apply_of_partOf {e : Entry} {address i : ℕ} {value : List UInt8}
    (h : e.PartOf address value) (hi : e.covers i = true) (m m₀ : Memory UInt8) :
    e.apply m i = m₀.store address value i := by
  obtain ⟨front, back, rfl, haddr⟩ := h
  rw [covers, Bool.and_eq_true, decide_eq_true_eq, decide_eq_true_eq] at hi
  have hleft : e.apply m i = e.data[i - e.address] := Memory.store_of_mem hi.1 (by omega)
  rw [hleft, Memory.store_of_mem (by omega) (by simp only [List.length_append]; omega),
    List.getElem_append_left (by simp only [List.length_append]; omega),
    List.getElem_append_right (by omega)]
  congr 1
  omega

theorem applyAll_of_not_covers {es : List Entry} {i : ℕ} (h : ∀ e ∈ es, e.covers i = false)
    (m : Memory UInt8) : applyAll m es i = m i := by
  induction es generalizing m with
  | nil => rfl
  | cons e es ih =>
    rw [applyAll_cons, ih fun e' he' => h e' (List.mem_cons_of_mem e he'),
      Entry.apply_of_not_covers (h e List.mem_cons_self)]

/-- Entries that hold parts of the data leave the bytes that they have. -/
theorem applyAll_of_partOf {es : List Entry} {address i : ℕ} {value : List UInt8}
    (h : ∀ e ∈ es, e.PartOf address value) (hi : ∃ e ∈ es, e.covers i = true)
    (m m₀ : Memory UInt8) : applyAll m es i = m₀.store address value i := by
  induction es generalizing m with
  | nil => simp at hi
  | cons e es ih =>
    rw [applyAll_cons]
    by_cases hlater : ∃ e' ∈ es, e'.covers i = true
    · exact ih (fun e' he' => h e' (List.mem_cons_of_mem e he')) hlater _
    · have hnone : ∀ e' ∈ es, e'.covers i = false := fun e' he' =>
        Bool.eq_false_iff.mpr fun hcovers => hlater ⟨e', he', hcovers⟩
      have hfirst : e.covers i = true := by
        obtain ⟨e', he', hcovers⟩ := hi
        rcases List.mem_cons.mp he' with rfl | he'
        · exact hcovers
        · exact absurd ⟨e', he', hcovers⟩ hlater
      rw [applyAll_of_not_covers hnone]
      exact Entry.apply_of_partOf (h e List.mem_cons_self) hfirst m m₀

/-- Without a cut entry the words are those of the complete ones. -/
theorem sizeOf_cutEntries {c : Config} {rs : List Record} (hrs : ∀ r ∈ rs, r.Valid c) {k : ℕ}
    (hk : k ≤ (rs.flatMap (Record.words c)).length) (htorn : tornOf c rs k = none) :
    sizeOf (cutEntries c rs k) = c.writeSize * k := by
  induction rs generalizing k with
  | nil =>
    obtain rfl : k = 0 := by simpa using hk
    rfl
  | cons r rs ih =>
    have hwords := Nat.mul_div_cancel' (LogEntry.size_words (hrs r List.mem_cons_self).decode).1
    rw [List.flatMap_cons, List.length_append, words_length] at hk
    rw [tornOf] at htorn
    rw [cutEntries]
    split_ifs at htorn ⊢ with hzero hcut
    · rw [hzero, Nat.mul_zero]
      rfl
    · have hrest := ih (fun r' hr' => hrs r' (List.mem_cons_of_mem r hr')) (by omega) htorn
      have hcons : sizeOf (r.entry :: cutEntries c rs (k - r.entry.size / c.writeSize)) =
          r.entry.size + sizeOf (cutEntries c rs (k - r.entry.size / c.writeSize)) := by
        simp [sizeOf]
      rw [hcons, hrest, Nat.mul_sub, hwords]
      have hle : r.entry.size ≤ c.writeSize * k := by
        rw [← hwords]
        exact Nat.mul_le_mul_left _ (Nat.le_of_not_lt hcut)
      omega

/-! ## What the ledger promises -/

/-- Bytes that are not unsaved are in the store, and the log ends at the write pointer if the
ledger says that it is whole. -/
structure Tracks (c : Config) (s : State) (b : Ledger) : Prop where
  clean : s.Clean c
  stored : (b.whole = true ∨ ∃ i < c.logicalSize, b.unsaved i = false) →
    ∃ img a, Stored c s.flash img a ∧ (b.whole = true → a = s.writeAddress) ∧
      ∀ i < c.logicalSize, b.unsaved i = false → img i = s.cache i

/-- A store that holds the cache. -/
theorem tracks_clear {c : Config} {s : State} (h : Stored c s.flash s.cache s.writeAddress) :
    Tracks c s Ledger.clear :=
  ⟨h.tail, fun _ => ⟨s.cache, s.writeAddress, h, fun _ => rfl, fun _ _ _ => rfl⟩⟩

/-- Nothing is known about the store. -/
theorem tracks_lost {c : Config} {s : State} (h : s.Clean c) :
    Tracks c s ⟨fun _ => true, false⟩ := by
  refine ⟨h, ?_⟩
  rintro (hwhole | ⟨i, -, hsaved⟩)
  · exact absurd hwhole Bool.false_ne_true
  · exact absurd hsaved.symm Bool.false_ne_true

/-- Only the two memories and the write pointer count. -/
theorem Tracks.congr {c : Config} {s s' : State} {b : Ledger} (h : Tracks c s b)
    (hflash : s'.flash = s.flash) (hcache : s'.cache = s.cache)
    (hptr : s'.writeAddress = s.writeAddress) : Tracks c s' b := by
  refine ⟨fun i hle hlt => ?_, ?_⟩
  · rw [hflash]
    exact h.clean i (hptr ▸ hle) hlt
  · rw [hflash, hcache, hptr]
    exact h.stored

section Calls

variable {c : Config} {s : State} {call : Call} {b : Ledger}

/-- What has been written behind the cache, if the log ends with a complete entry. -/
theorem Tracks.image (h : Tracks c s b) (hwhole : b.whole = true) :
    ∃ img, Stored c s.flash img s.writeAddress ∧
      ∀ i < c.logicalSize, b.unsaved i = false → img i = s.cache i := by
  obtain ⟨img, a, hstored, ha, hsaved⟩ := h.stored (Or.inl hwhole)
  rw [ha hwhole] at hstored
  exact ⟨img, hstored, hsaved⟩

theorem length_take_words {k : ℕ}
    (hk : k ≤ ((encode c call.address call.value).flatMap (Record.words c)).length) :
    (((encode c call.address call.value).flatMap (Record.words c)).take k).flatten.length =
      c.writeSize * k := by
  have hlength : ∀ w ∈ ((encode c call.address call.value).flatMap (Record.words c)).take k,
      w.length = c.writeSize := fun w hw => words_length_of_mem (List.mem_of_mem_take hw)
  rw [List.length_flatten, List.map_congr_left hlength, List.map_const', List.sum_replicate_nat,
    List.length_take, Nat.min_eq_left hk, Nat.mul_comm]

/-- After a failure. -/
theorem Tracks.failure (h : Tracks c s b) (hrange : call.InRange c)
    (hfailed : (call.logged c s).1 = .failed) :
    Tracks c (call.logged c s).2 (b.afterFailure c s call) := by
  have happ := writeLog_appended c call.address call.value (call.before s)
  have hcache : (call.logged c s).2.cache = s.cache.store call.address call.value := happ.cache
  have hclean : (call.logged c s).2.Clean c := happ.clean h.clean
  have hhow := writeLog_failed (c := c) hfailed
  unfold Ledger.afterFailure
  change Failed c _ (call.before s) (call.logged c s).2 at hhow
  generalize (call.logged c s).2 = s' at *
  cases hhow with
  | erased more ptr =>
    have hmore : erases s' ≠ erases s := fun hsame => absurd more (by
      rw [hsame]
      exact Nat.lt_irrefl _)
    dsimp only
    rw [if_pos hmore]
    refine ⟨hclean, fun _ => ⟨base c s'.flash, c.logStart, ⟨⟨[], rfl, fun _ _ => rfl⟩,
      Nat.le_max_right _ _, ptr ▸ hclean⟩, fun _ => ptr.symm, fun i _ hsaved => ?_⟩⟩
    exact absurd hsaved.symm Bool.false_ne_true
  | broken k hk flash ptr same =>
    have hsame : ¬ erases s' ≠ erases s := not_not.mpr same
    have hptr : s'.writeAddress = s.writeAddress + c.writeSize * k := by
      rw [ptr, length_take_words hk]
      rfl
    have hwords : (s'.writeAddress - s.writeAddress) / c.writeSize = k := by
      rw [hptr, Nat.add_sub_cancel_left, Nat.mul_div_cancel_left k c.writeSize_pos]
    dsimp only
    rw [if_neg hsame, hwords]
    split_ifs with hzero hfits
    · -- nothing has been written
      have hflash : s'.flash = s.flash := by
        rw [flash, hzero, List.take_zero, List.flatten_nil, Memory.store_nil]
        rfl
      refine ⟨hclean, fun hknown => ?_⟩
      obtain ⟨img, a, hstored, ha, hsaved⟩ := h.stored (hknown.imp_right fun ⟨i, hi, hunsaved⟩ =>
        ⟨i, hi, (Bool.or_eq_false_iff.mp hunsaved).1⟩)
      refine ⟨img, a, hflash ▸ hstored, fun hwhole => ?_, fun i hi hunsaved => ?_⟩
      · rw [ha hwhole, hptr, hzero, Nat.mul_zero, Nat.add_zero]
      · obtain ⟨hunsaved, hsamebyte⟩ := Bool.or_eq_false_iff.mp hunsaved
        rw [hsaved i hi hunsaved, hcache]
        exact (bne_eq_false_iff_eq.mp hsamebyte).symm
    · -- some entries and perhaps a cut one
      obtain ⟨hwhole, hL, hsize⟩ := hfits
      obtain ⟨img, hstored, hsaved⟩ := h.image hwhole
      have henc := encode_encodes (c := c) hrange hL
      obtain ⟨hes, htail⟩ := cutEntries_entries henc.valid s.flash s.writeAddress k hsize h.clean
      have hflash : s'.flash = s.flash.store s.writeAddress
          (((encode c call.address call.value).flatMap (Record.words c)).take k).flatten := flash
      rw [← hflash] at hes htail
      have hext := hstored.extend (fun i hi => by rw [hflash]; exact (Memory.store_of_lt hi).symm)
        hes (by omega) htail
      refine ⟨hclean, fun _ => ⟨_, _, hext, fun hnone => ?_, fun i hi hunsaved => ?_⟩⟩
      · rw [sizeOf_cutEntries henc.valid hk (Option.isNone_iff_eq_none.mp hnone), hptr]
      · obtain ⟨done, hcut, hdone⟩ := cutEntries_eq (c := c)
          (encode c call.address call.value) k
        have hparts : ∀ e ∈ done, e.PartOf call.address call.value := by
          intro e he
          obtain ⟨r, hr, rfl⟩ := hdone e he
          exact henc.partOf r hr
        rw [hcache, hcut]
        dsimp only at hunsaved
        rw [hcut] at hunsaved
        split_ifs at hunsaved with hcovers
        · -- a byte of a complete entry that the cut one leaves
          have htorn : ∀ e ∈ (tornOf c (encode c call.address call.value) k).toList,
              e.covers i = false := by
            intro e he
            rw [Option.mem_toList] at he
            rw [he] at hunsaved
            exact hunsaved
          rw [applyAll_append, applyAll_of_not_covers htorn]
          refine applyAll_of_partOf hparts ?_ _ _
          obtain ⟨e, he, hin⟩ := List.any_eq_true.mp hcovers
          rcases List.mem_append.mp he with he | he
          · exact ⟨e, he, hin⟩
          · exact absurd (hin.symm.trans (htorn e he)) (by decide)
        · -- a byte of no entry
          obtain ⟨hunsaved, hsamebyte⟩ := Bool.or_eq_false_iff.mp hunsaved
          rw [applyAll_of_not_covers fun e he => Bool.eq_false_iff.mpr fun hin =>
            hcovers (List.any_eq_true.mpr ⟨e, he, hin⟩), hsaved i hi hunsaved]
          exact (bne_eq_false_iff_eq.mp hsamebyte).symm
    · exact tracks_lost hclean

/-- After a success, or a consolidation. -/
theorem Tracks.logged (h : Tracks c s b) (hrange : call.InRange c)
    (hne : s.cache.load call.address call.value.length ≠ call.value)
    (happend : b.whole = true ∧ call.address + call.value.length ≤ 2 ^ 19 ∨
      c.backingSize ≤ s.writeAddress + logBytes c call.address call.value) :
    Tracks c (call.logged c s).2 (b.after c s call) := by
  have happ := writeLog_appended c call.address call.value (call.before s)
  have hcache : (call.logged c s).2.cache = s.cache.store call.address call.value := happ.cache
  have hvalue : call.value ≠ [] := fun hnil => hne (by rw [hnil]; rfl)
  unfold Ledger.after
  rw [if_neg hne]
  cases hstatus : (call.logged c s).1 with
  | failed => exact h.failure hrange hstatus
  | consolidated =>
    obtain ⟨hptr, flash, hflash⟩ := happ.consolidated hstatus
    change (call.logged c s).2.writeAddress = c.logStart at hptr
    change (call.logged c s).2.flash = consolidatedFlash c _ flash at hflash
    refine tracks_clear ?_
    rw [hflash, hptr, hcache]
    exact stored_consolidatedFlash _ flash
  | success =>
    have hlt := (happ.success hstatus).2 (encode_words_ne_nil hvalue)
    have hend := (happ.success hstatus).1.2
    obtain ⟨hwhole, hL⟩ := happend.resolve_right fun hfull => by
      change (call.logged c s).2.writeAddress = s.writeAddress + _ at hend
      change (call.logged c s).2.writeAddress < c.backingSize at hlt
      rw [logBytes] at hfull
      omega
    obtain ⟨img, hstored, hsaved⟩ := h.image hwhole
    have hnext := (happ.stored (s := s) rfl rfl hrange hL hvalue hstored hstatus).1
    refine ⟨happ.clean h.clean, fun _ => ⟨_, _, hnext, fun _ => rfl, fun i hi hunsaved => ?_⟩⟩
    rw [hcache]
    rcases Bool.and_eq_false_iff.mp hunsaved with hunsaved | hcovers
    · exact Memory.store_congr (hsaved i hi hunsaved)
    · have hin : call.covers i = true := by simpa using hcovers
      rw [Call.covers, Bool.and_eq_true, decide_eq_true_eq, decide_eq_true_eq] at hin
      rw [Memory.store_of_mem hin.1 (by omega), Memory.store_of_mem hin.1 (by omega)]

end Calls

end WearLeveling
end VialQmk
