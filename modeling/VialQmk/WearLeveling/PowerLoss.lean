import Mathlib.Algebra.GroupWithZero.Nat
import VialQmk.WearLeveling.Persistence

/-!
# Wear leveling - power loss during an append

Power may fail after any number of the words of a write.  The entries whose words
are all there are read back as they are.  The entry that is cut is read with its
missing words as zero: after the first of its two-byte words even its address is
incomplete.

Main results:

- Definition {lit}`cutEntries`: the entries a boot finds after a power loss.
- Theorem {lit}`cutEntries_entries`: they are what the store holds.
- Theorem {lit}`inSync_reachable`: store and cache are in step in every reachable state.
- Theorem {lit}`crashSafe_iff`: a power loss is harmless exactly when the cut entry is.
-/

namespace VialQmk
namespace WearLeveling

/-! ## The entry that is cut -/

/-- The entry that a boot reads when only the first {lit}`k` words of a record are in
the store. -/
def tornEntry (c : Config) (e : Entry) (k : ℕ) : Entry where
  size := e.size
  address := if c.writeSize * k < 3 then e.address / 256 * 256 else e.address
  data := e.data.take (c.writeSize * k - 3) ++
    List.replicate (e.data.length - (c.writeSize * k - 3)) 0

/-- The entries that a boot finds when only the first {lit}`k` words of some records
are in the store. -/
def cutEntries (c : Config) : List Record → ℕ → List Entry
  | [], _ => []
  | r :: rs, k =>
    if k = 0 then []
    else if k < r.entry.size / c.writeSize then [tornEntry c r.entry k]
    else r.entry :: cutEntries c rs (k - r.entry.size / c.writeSize)

/-- The bytes of an entry whose words from {lit}`k` on are missing. -/
def TornAt (c : Config) (log log' : LogEntry) (k size : ℕ) : Prop :=
  ∀ i, i < size → log' i = if i < c.writeSize * k then log i else 0

@[simp]
theorem tornEntry_data_length (c : Config) (e : Entry) (k : ℕ) :
    (tornEntry c e k).data.length = e.data.length := by
  simp only [tornEntry, List.length_append, List.length_take, List.length_replicate]
  omega

/-- A cut entry stays inside the logical data. -/
theorem tornEntry_inRange {c : Config} {e : Entry} {k : ℕ} (h : e.InRange c) :
    (tornEntry c e k).InRange c := by
  have haddr : (tornEntry c e k).address ≤ e.address := by
    simp only [tornEntry]
    split_ifs <;> omega
  rw [Entry.InRange, tornEntry_data_length]
  exact Nat.le_trans (Nat.add_le_add_right haddr _) h

/-- The data of a cut entry: the bytes that are there, then zeros. -/
theorem load_torn {c : Config} {address k : ℕ} {value : List UInt8} {log' : LogEntry}
    (hlog : TornAt c (LogEntry.multibyteEntry address value) log' k (3 + value.length)) :
    log'.load 3 value.length = value.take (c.writeSize * k - 3) ++
      List.replicate (value.length - (c.writeSize * k - 3)) 0 := by
  apply List.ext_getElem
  · simp only [Memory.load_length, List.length_append, List.length_take, List.length_replicate]
    omega
  intro i hi _
  rw [Memory.load_length] at hi
  rw [Memory.load_getElem, hlog (3 + i) (by omega)]
  by_cases hk : 3 + i < c.writeSize * k
  · rw [if_pos hk, List.getElem_append_left (by rw [List.length_take]; omega), List.getElem_take,
      LogEntry.multibyteEntry, Memory.store_add hi]
  · rw [if_neg hk, List.getElem_append_right (by rw [List.length_take]; omega),
      List.getElem_replicate]

/-- A boot reads a cut multibyte entry as {lit}`tornEntry`. -/
theorem decode_torn {c : Config} {address k : ℕ} {value : List UInt8} {log' : LogEntry}
    (hlen : value.length ≤ 5) (haddr : address < 2 ^ 19) (hk : 0 < k)
    (hlog : TornAt c (LogEntry.multibyteEntry address value) log' k
      (c.multibyteSize value.length)) :
    log'.decode c = some (tornEntry c (multibyteRecord c address value).entry k) := by
  have hW := c.two_le_writeSize
  have hsize := LogEntry.add_le_multibyteSize (c := c) hlen
  have hWk : c.writeSize ≤ c.writeSize * k := Nat.le_mul_of_pos_right _ hk
  have h0 : log' 0 = LogEntry.multibyteEntry address value 0 := by
    rw [hlog 0 (by omega), if_pos (by omega)]
  have h1 : log' 1 = LogEntry.multibyteEntry address value 1 := by
    rw [hlog 1 (by omega), if_pos (by omega)]
  have htype : log'.getType = .multibyte := by
    rw [LogEntry.getType_congr h0, LogEntry.getType_multibyteEntry]
  have hlength : log'.multibyteGetLength = value.length := by
    rw [LogEntry.multibyteGetLength_congr h0,
      LogEntry.multibyteGetLength_multibyteEntry (by omega)]
  have haddress : log'.multibyteGetAddress =
      if c.writeSize * k < 3 then address / 256 * 256 else address := by
    split_ifs with hcut
    · have h2 : log' 2 = 0 := by rw [hlog 2 (by omega), if_neg (by omega)]
      rw [LogEntry.multibyteGetAddress_eq, h0, h1, h2, LogEntry.multibyteEntry,
        Memory.store_of_lt (by omega), Memory.store_of_lt (by omega),
        LogEntry.makeMultibyte_zero, LogEntry.makeMultibyte_one]
      simp only [UInt8.toNat_zero]
      omega
    · have h2 : log' 2 = LogEntry.multibyteEntry address value 2 := by
        rw [hlog 2 (by omega), if_pos (by omega)]
      have hbytes : ∀ i, i < 3 → log' i = LogEntry.multibyteEntry address value i := by
        intro i hi
        rcases i with _ | _ | _ | i
        · exact h0
        · exact h1
        · exact h2
        · omega
      rw [LogEntry.multibyteGetAddress_congr hbytes,
        LogEntry.multibyteGetAddress_multibyteEntry haddr]
  have hlog' : TornAt c (LogEntry.multibyteEntry address value) log' k (3 + value.length) :=
    fun i hi => hlog i (by omega)
  have hload := load_torn hlog'
  simp only [LogEntry.decode, htype, hlength, haddress, hload]
  rfl

/-- A record that is not cut takes its words. -/
theorem words_length {c : Config} (r : Record) :
    (r.words c).length = r.entry.size / c.writeSize := by
  simp [Record.words]

/-- The first words of a record are its first bytes. -/
theorem words_take_flatten {c : Config} {r : Record} {k : ℕ} (hk : k ≤ r.entry.size / c.writeSize) :
    ((r.words c).take k).flatten = r.log.load 0 (c.writeSize * k) := by
  rw [Record.words, ← List.map_take, List.take_range, Nat.min_eq_left hk]
  clear hk
  induction k with
  | zero => simp
  | succ k ih =>
    rw [List.range_succ, List.map_append, List.flatten_append, ih, Nat.mul_succ,
      Memory.load_add, Nat.zero_add]
    simp

/-- The bytes of a cut record, in a store that is empty behind them. -/
theorem tornAt_store {c : Config} {flash : Memory UInt8} {r : Record} {a k : ℕ}
    (hclean : ∀ i, a ≤ i → i < a + r.entry.size → flash i = 0) :
    TornAt c r.log (entryAt (flash.store a (r.log.load 0 (c.writeSize * k))) a) k
      r.entry.size := by
  intro i hi
  rw [entryAt]
  by_cases hk : i < c.writeSize * k
  · rw [if_pos hk, Memory.store_add (by rw [Memory.load_length]; exact hk), Memory.load_getElem,
      Nat.zero_add]
  · rw [if_neg hk, Memory.store_of_ge (by rw [Memory.load_length]; omega)]
    exact hclean (a + i) (by omega) (by omega)

/-- A cut record is an entry that the playback accepts. -/
theorem holds_torn {c : Config} {flash : Memory UInt8} {r : Record} {a k : ℕ} (hr : r.Valid c)
    (hpos : 0 < k) (hk : k < r.entry.size / c.writeSize)
    (hclean : ∀ i, a ≤ i → i < a + r.entry.size → flash i = 0) :
    Holds c (flash.store a (r.log.load 0 (c.writeSize * k))) a (tornEntry c r.entry k) := by
  have hW := c.two_le_writeSize
  have htorn := tornAt_store (c := c) (k := k) hclean
  have hsize : c.writeSize * k < r.entry.size :=
    (Nat.lt_div_iff_mul_lt' (LogEntry.size_words hr.decode).1 k).mp hk
  have hWk : c.writeSize ≤ c.writeSize * k := Nat.le_mul_of_pos_right _ hpos
  obtain hword | ⟨address, value, hvalue, hlen, haddr, rfl⟩ := hr.shape
  · rw [hword, Nat.div_self c.writeSize_pos] at hk
    omega
  have hzero : entryAt (flash.store a ((multibyteRecord c address value).log.load 0
      (c.writeSize * k))) a 0 = LogEntry.multibyteEntry address value 0 := by
    rw [htorn 0 (by omega), if_pos (by omega)]
    rfl
  refine ⟨notEmpty_of_zero (hzero ▸ multibyteEntry_zero hvalue hlen),
    decode_torn hlen haddr hpos htorn, ?_, tornEntry_inRange hr.inRange⟩
  rw [tornEntry_data_length]
  exact hr.short

/-- The bytes that some entries take. -/
def sizeOf (es : List Entry) : ℕ :=
  (es.map Entry.size).sum

/-- The entries that a boot finds take no more bytes than the records. -/
theorem sizeOf_cutEntries_le (c : Config) (rs : List Record) (k : ℕ) :
    sizeOf (cutEntries c rs k) ≤ (recordsBytes rs).length := by
  induction rs generalizing k with
  | nil => exact Nat.le_refl 0
  | cons r rs ih =>
    have hbytes : (recordsBytes (r :: rs)).length = r.entry.size + (recordsBytes rs).length := by
      simp [recordsBytes]
    have hrest := ih (k - r.entry.size / c.writeSize)
    rw [hbytes, cutEntries]
    split_ifs with hzero hk
    · exact Nat.zero_le _
    · simp [sizeOf, tornEntry]
    · simp only [sizeOf, List.map_cons, List.sum_cons] at hrest ⊢
      omega

/-- When only some words are in the store it holds the entries that are complete and the one
that is cut, and nothing behind them. -/
theorem cutEntries_entries {c : Config} {rs : List Record} (hrs : ∀ r ∈ rs, r.Valid c) :
    ∀ (flash : Memory UInt8) (a k : ℕ), a + sizeOf (cutEntries c rs k) ≤ c.backingSize →
      (∀ i, a ≤ i → i < c.backingSize → flash i = 0) →
      Entries c (flash.store a ((rs.flatMap (Record.words c)).take k).flatten) a
          (cutEntries c rs k) (a + sizeOf (cutEntries c rs k)) ∧
        ∀ i, a + sizeOf (cutEntries c rs k) ≤ i → i < c.backingSize →
          flash.store a ((rs.flatMap (Record.words c)).take k).flatten i = 0 := by
  induction rs with
  | nil =>
    intro flash a k hle hclean
    exact ⟨rfl, by simpa [cutEntries, sizeOf] using hclean⟩
  | cons r rs ih =>
    intro flash a k hle hclean
    have hr := hrs r List.mem_cons_self
    have hsize := LogEntry.writeSize_le_size hr.decode
    rw [List.flatMap_cons, List.take_append, words_length]
    by_cases hzero : k = 0
    · have hnone : cutEntries c (r :: rs) k = [] := by rw [cutEntries, if_pos hzero]
      rw [hnone]
      exact ⟨rfl, by simpa [hzero, sizeOf] using hclean⟩
    by_cases hk : k < r.entry.size / c.writeSize
    · -- the cut is inside this record
      have hcut : cutEntries c (r :: rs) k = [tornEntry c r.entry k] := by
        rw [cutEntries, if_neg hzero, if_pos hk]
      have hsum : sizeOf [tornEntry c r.entry k] = r.entry.size := by simp [sizeOf, tornEntry]
      have hnone : k - r.entry.size / c.writeSize = 0 := by omega
      have hWk : c.writeSize * k ≤ r.entry.size := by
        rw [← Nat.mul_div_cancel' (LogEntry.size_words hr.decode).1]
        exact Nat.mul_le_mul_left _ (Nat.le_of_lt hk)
      rw [hcut, hsum] at hle ⊢
      rw [hnone, List.take_zero, List.append_nil, words_take_flatten (Nat.le_of_lt hk)]
      refine ⟨?_, fun i hi hb => ?_⟩
      · exact ⟨holds_torn hr (Nat.pos_of_ne_zero hzero) hk
          fun i hge hi => hclean i hge (by omega), rfl⟩
      · rw [Memory.store_of_ge (by rw [Memory.load_length]; omega)]
        exact hclean i (by omega) hb
    · -- this record is complete
      have hcut : cutEntries c (r :: rs) k =
          r.entry :: cutEntries c rs (k - r.entry.size / c.writeSize) := by
        rw [cutEntries, if_neg hzero, if_neg hk]
      have hsum : sizeOf (r.entry :: cutEntries c rs (k - r.entry.size / c.writeSize)) =
          r.entry.size + sizeOf (cutEntries c rs (k - r.entry.size / c.writeSize)) := by
        simp [sizeOf]
      have hall : (r.words c).take k = r.words c :=
        List.take_of_length_le (by rw [words_length]; omega)
      rw [hcut, hsum, ← Nat.add_assoc] at hle ⊢
      rw [hall, List.flatten_append, words_flatten (LogEntry.size_words hr.decode).1,
        Memory.store_append, Record.bytes_length]
      obtain ⟨hes, htail⟩ := ih (fun r' hr' => hrs r' (List.mem_cons_of_mem _ hr'))
        (flash.store a r.bytes) (a + r.entry.size) (k - r.entry.size / c.writeSize) hle
        fun i hi hb => by
          rw [Memory.store_of_ge (by rw [Record.bytes_length]; omega)]
          exact hclean i (by omega) hb
      refine ⟨⟨(hr.holds ?_).congr fun i hge hi => (Memory.store_of_lt hi).symm, hes⟩, htail⟩
      have hload := Memory.load_store_same flash a r.bytes
      rwa [Record.bytes_length] at hload

/-! ## The writes of a call -/

/-- The successful writes of a trace, oldest first. -/
def writesOf (trace : List Event) : List (ℕ × Word) :=
  trace.reverse.filterMap fun
    | .write address value true => some (address, value)
    | _ => none

@[simp]
theorem writesOf_cons (e : Event) (trace : List Event) :
    writesOf (e :: trace) = writesOf trace ++ (match e with
      | .write address value true => [(address, value)]
      | _ => []) := by
  simp only [writesOf, List.reverse_cons, List.filterMap_append]
  congr 1
  split <;> simp_all

/-- Words at the addresses one behind the other. -/
def placed (c : Config) : ℕ → List Word → List (ℕ × Word)
  | _, [] => []
  | a, w :: ws => (a, w) :: placed c (a + c.writeSize) ws

/-- The {lit}`backing_store_write` calls that a call of {lit}`wear_leveling_write`
issues. -/
def callWrites (c : Config) (address : ℕ) (value : List UInt8) (s : State) :
    List (ℕ × Word) :=
  (writesOf (write c address value s).2.trace).drop (writesOf s.trace).length

/-- The store when power is lost after the first {lit}`k` writes. -/
def powerLoss (flash : Memory UInt8) (writes : List (ℕ × Word)) (k : ℕ) : Memory UInt8 :=
  (writes.take k).foldl (fun flash w => flash.store w.1 w.2) flash

theorem unlock_writes (s : State) : writesOf (unlock s).2.trace = writesOf s.trace := by
  simp only [unlock]
  split_ifs <;> simp [backingStoreUnlock]

theorem lock_writes (s : State) : writesOf (lock s).2.trace = writesOf s.trace := by
  simp only [lock]
  split_ifs <;> simp [backingStoreLock]

theorem appendRaw_writes {c : Config} {w : Word} {s : State}
    (h : (appendRaw c w s).1 = .success) :
    writesOf (appendRaw c w s).2.trace = writesOf s.trace ++ [(s.writeAddress, w)] := by
  cases hw : (s.ask (.write s.writeAddress w)).1 with
  | false => simp [appendRaw, backingStoreWrite, hw] at h
  | true =>
    simp only [appendRaw, backingStoreWrite, hw, if_true, consolidateIfNeeded] at h ⊢
    split_ifs at h ⊢ with hfull
    · obtain ⟨-, ⟨hs, -⟩ | ⟨hs, -⟩ | ⟨hs, -⟩, -⟩ := consolidateForce_spec c
        { (s.ask (.write s.writeAddress w)).2 with
          flash := (s.ask (.write s.writeAddress w)).2.flash.store s.writeAddress w
          writeAddress := (s.ask (.write s.writeAddress w)).2.writeAddress + c.writeSize } <;>
        exact absurd (hs.symm.trans h) (by simp)
    · simp [hw]

theorem appendWords_writes {c : Config} {ws : List Word}
    (hws : ∀ w ∈ ws, w.length = c.writeSize) {s : State}
    (h : (appendWords c ws s).1 = .success) :
    writesOf (appendWords c ws s).2.trace =
      writesOf s.trace ++ placed c s.writeAddress ws := by
  induction ws generalizing s with
  | nil => simp [appendWords, placed]
  | cons w ws ih =>
    have happ := appendRaw_appended (hws w List.mem_cons_self) s
    have hwrites := appendRaw_writes (c := c) (w := w) (s := s)
    simp only [appendWords] at h ⊢
    generalize appendRaw c w s = r at *
    obtain ⟨status, s₁⟩ := r
    cases status with
    | failed => exact absurd h (by simp [onSuccess])
    | consolidated => exact absurd h (by simp [onSuccess])
    | success =>
      obtain ⟨⟨-, hptr⟩, -⟩ := happ.success rfl
      rw [onSuccess_success] at h ⊢
      rw [ih (fun w' hw' => hws w' (List.mem_cons_of_mem _ hw')) h, hwrites rfl]
      simp only [List.flatten_singleton, hws w List.mem_cons_self] at hptr
      rw [placed, hptr, List.append_assoc]
      rfl

/-- Words one behind the other are one block. -/
theorem powerLoss_placed {c : Config} {ws : List Word} (hws : ∀ w ∈ ws, w.length = c.writeSize)
    (flash : Memory UInt8) (a k : ℕ) :
    powerLoss flash (placed c a ws) k = flash.store a (ws.take k).flatten := by
  induction ws generalizing flash a k with
  | nil => simp [powerLoss, placed]
  | cons w ws ih =>
    cases k with
    | zero => simp [powerLoss]
    | succ k =>
      have hrest := ih (fun w' hw' => hws w' (List.mem_cons_of_mem _ hw')) (flash.store a w)
        (a + c.writeSize) k
      rw [List.take_succ_cons, List.flatten_cons, Memory.store_append,
        hws w List.mem_cons_self, ← hrest]
      rfl

/-- A successful write that changes the cache issues the words of its entries. -/
theorem callWrites_eq {c : Config} {address : ℕ} {value : List UInt8} {s : State}
    (hrange : address + value.length ≤ c.logicalSize)
    (hne : s.cache.load address value.length ≠ value)
    (hstatus : (write c address value s).1 = .success) :
    callWrites c address value s =
      placed c s.writeAddress ((encode c address value).flatMap (Record.words c)) := by
  set s₀ : State := { s with cache := s.cache.store address value } with hs₀
  have htrace : writesOf (unlock s₀).2.trace = writesOf s.trace := unlock_writes s₀
  have hptr : (unlock s₀).2.writeAddress = s.writeAddress := (unlock_sameRam s₀).writeAddress
  have hraw : (onSuccess (writeRaw c address value (unlock s₀).2) (consolidateIfNeeded c)).1 =
      .success → writesOf (onSuccess (writeRaw c address value (unlock s₀).2)
        (consolidateIfNeeded c)).2.trace = writesOf s.trace ++
        placed c s.writeAddress ((encode c address value).flatMap (Record.words c)) := by
    intro h
    have hws : ∀ w ∈ (encode c address value).flatMap (Record.words c),
        w.length = c.writeSize := fun w hw => words_length_of_mem hw
    have hwrites := appendWords_writes hws (s := (unlock s₀).2)
    rw [← writeRaw_eq, htrace, hptr] at hwrites
    generalize writeRaw c address value (unlock s₀).2 = r at *
    obtain ⟨status, s₁⟩ := r
    cases status with
    | failed => exact absurd h (by simp [onSuccess])
    | consolidated => exact absurd h (by simp [onSuccess])
    | success =>
      rw [onSuccess_success] at h ⊢
      simp only [consolidateIfNeeded] at h ⊢
      split_ifs at h ⊢ with hfull
      · obtain ⟨-, ⟨hs, -⟩ | ⟨hs, -⟩ | ⟨hs, -⟩, -⟩ := consolidateForce_spec c s₁ <;>
          exact absurd (hs.symm.trans h) (by simp)
      · exact hwrites rfl
  have htotal : writesOf (write c address value s).2.trace = writesOf s.trace ++
      placed c s.writeAddress ((encode c address value).flatMap (Record.words c)) := by
    simp only [write, if_neg (not_lt_of_inRange hrange), if_neg hne, ← hs₀] at hstatus ⊢
    by_cases hfail : (unlock s₀).1 = .failure
    · simp [hfail] at hstatus
    rw [if_neg hfail] at hstatus ⊢
    by_cases hsucc : (unlock s₀).1 = .success
    · rw [if_pos hsucc] at hstatus ⊢
      dsimp only at hstatus ⊢
      split_ifs at hstatus with hlock
      rw [lock_writes]
      exact hraw hstatus
    · rw [if_neg hsucc] at hstatus ⊢
      exact hraw hstatus
  rw [callWrites, htotal, List.drop_left]

/-! ## Reachable states -/

/-- The states reached from a first boot by calls in range and by boots behind a loss of
power in the middle of a write that does not consolidate, while no primitive fails. -/
inductive Reachable (c : Config) : State → Prop
  | firstBoot {s : State} (h : FirstBoot c s) : Reachable c (init c s).2
  | call {s : State} {op : Op} (h : Reachable c s) (hop : op.InRange c) :
    Reachable c (step c s op)
  | powerLoss {s t : State} {address : ℕ} {value : List UInt8} {k : ℕ} (h : Reachable c s)
    (hrange : address + value.length ≤ c.logicalSize)
    (hcons : (write c address value s).1 ≠ .consolidated) (ht : t.NoFailure)
    (hflash : t.flash = powerLoss s.flash (callWrites c address value s) k) :
    Reachable c (init c t).2

/-- A call that does not consolidate either finds its data in the cache or appends. -/
theorem write_cases {c : Config} {address : ℕ} {value : List UInt8} {s : State}
    (hs : InSync c s) (hrange : address + value.length ≤ c.logicalSize)
    (hcons : (write c address value s).1 ≠ .consolidated)
    (hne : s.cache.load address value.length ≠ value) : (write c address value s).1 = .success := by
  have hok := ((write_appended hrange hne).noFailure hs.noFailure).1
  cases h : (write c address value s).1 with
  | failed => exact absurd h hok
  | consolidated => exact absurd h hcons
  | success => rfl

/-- After a power loss the store holds the logical data with the complete entries and
the cut one over it. -/
theorem stored_powerLoss {c : Config} (hL : c.logicalSize ≤ 2 ^ 19) {s : State}
    (hs : InSync c s) {address : ℕ} {value : List UInt8} {k : ℕ}
    (hrange : address + value.length ≤ c.logicalSize)
    (hne : s.cache.load address value.length ≠ value)
    (hcons : (write c address value s).1 ≠ .consolidated) :
    ∃ b, Stored c (powerLoss s.flash (callWrites c address value s) k)
      (applyAll s.cache (cutEntries c (encode c address value) k)) b := by
  have hstatus := write_cases hs hrange hcons hne
  have henc := encode_encodes hrange (Nat.le_trans hrange hL)
  have hlt := write_success_lt hrange hne hstatus
  rw [logBytes, recordsWords_flatten henc.valid] at hlt
  have hsize := sizeOf_cutEntries_le c (encode c address value) k
  obtain ⟨hes, htail⟩ := cutEntries_entries henc.valid s.flash s.writeAddress k (by omega)
    hs.stored.tail
  rw [callWrites_eq hrange hne hstatus, powerLoss_placed fun w hw => words_length_of_mem hw]
  exact ⟨_, hs.stored.extend (fun i hi => (Memory.store_of_lt hi).symm) hes (by omega) htail⟩

/-- A call that finds its data in the cache issues no writes. -/
theorem callWrites_of_eq {c : Config} {address : ℕ} {value : List UInt8} {s : State}
    (hrange : address + value.length ≤ c.logicalSize)
    (heq : s.cache.load address value.length = value) : callWrites c address value s = [] := by
  rw [callWrites, write_of_eq hrange heq, List.drop_length]

/-- Store and cache are in step in every reachable state. -/
theorem inSync_reachable {c : Config} (hL : c.logicalSize ≤ 2 ^ 19) {s : State}
    (h : Reachable c s) : InSync c s := by
  induction h with
  | firstBoot h => exact (models_firstBoot h).1
  | call _ hop ih => exact (models_step hL ⟨ih, fun _ _ => rfl⟩ hop).1
  | @powerLoss s t address value k _ hrange hcons ht hflash ih =>
    by_cases heq : s.cache.load address value.length = value
    · rw [callWrites_of_eq hrange heq] at hflash
      have hsame : t.flash = s.flash := by simpa [WearLeveling.powerLoss] using hflash
      exact (models_init ht (hsame ▸ ih.stored)).1
    · obtain ⟨b, hb⟩ := stored_powerLoss (k := k) hL ih hrange heq hcons
      exact (models_init ht (hflash ▸ hb)).1

/-! ## Crash safety -/

/-- What is asked of a loss of power after the first {lit}`k` writes of a call: a boot
yields old or new bytes inside the range of the call and old bytes outside, and later
writes are persisted. -/
def CrashSafe (c : Config) (s : State) (address : ℕ) (value : List UInt8) (k : ℕ) : Prop :=
  ∀ t : State, t.NoFailure →
    t.flash = powerLoss s.flash (callWrites c address value s) k →
    (∀ x, x < c.logicalSize → (init c t).2.cache x = s.cache x ∨
      address ≤ x ∧ value[x - address]? = some ((init c t).2.cache x)) ∧
    ∀ ops : List Op, (∀ op ∈ ops, op.InRange c) →
      Persisted c (StateMachine.run (step c) (init c t).2 ops)
        (StateMachine.run specStep (init c t).2.cache ops)

/-- The entry that is cut, as a boot reads it. -/
def tornOf (c : Config) : List Record → ℕ → Option Entry
  | [], _ => none
  | r :: rs, k =>
    if k = 0 then none
    else if k < r.entry.size / c.writeSize then some (tornEntry c r.entry k)
    else tornOf c rs (k - r.entry.size / c.writeSize)

/-- The cut entry is harmless: each byte it holds, with the missing words as zero, is
the byte that was at its address before, or belongs to the call. -/
def TornHarmless (c : Config) (s : State) (address : ℕ) (value : List UInt8) (k : ℕ) : Prop :=
  s.cache.load address value.length ≠ value →
    ∀ e, tornOf c (encode c address value) k = some e →
      ∀ i (hi : i < e.data.length), e.data[i] = s.cache (e.address + i) ∨
        address ≤ e.address + i ∧ value[e.address + i - address]? = some e.data[i]

/-- Complete entries, then the cut one. -/
theorem cutEntries_eq {c : Config} (rs : List Record) (k : ℕ) :
    ∃ done, cutEntries c rs k = done ++ (tornOf c rs k).toList ∧
      ∀ e ∈ done, ∃ r ∈ rs, r.entry = e := by
  induction rs generalizing k with
  | nil => exact ⟨[], rfl, by simp⟩
  | cons r rs ih =>
    simp only [cutEntries, tornOf]
    split_ifs with hzero hk
    · exact ⟨[], rfl, by simp⟩
    · exact ⟨[], rfl, by simp⟩
    · obtain ⟨done, heq, hmem⟩ := ih (k - r.entry.size / c.writeSize)
      refine ⟨r.entry :: done, by rw [heq, List.cons_append], fun e he => ?_⟩
      rcases List.mem_cons.mp he with rfl | he
      · exact ⟨r, List.mem_cons_self, rfl⟩
      · obtain ⟨r', hr', heq'⟩ := hmem e he
        exact ⟨r', List.mem_cons_of_mem _ hr', heq'⟩

/-- Entries that hold parts of the data leave old or new bytes. -/
theorem applyAll_partOf {address : ℕ} {value : List UInt8} (es : List Entry)
    (h : ∀ e ∈ es, e.PartOf address value) (cache : Memory UInt8) (x : ℕ) :
    applyAll cache es x = cache x ∨
      address ≤ x ∧ value[x - address]? = some (applyAll cache es x) := by
  induction es generalizing cache with
  | nil => exact Or.inl rfl
  | cons e es ih =>
    obtain ⟨front, back, hvalue, haddr⟩ := h e List.mem_cons_self
    rw [applyAll_cons]
    rcases ih (fun e' he' => h e' (List.mem_cons_of_mem _ he')) (e.apply cache) with hx | hx
    · rw [hx]
      by_cases hin : e.address ≤ x ∧ x - e.address < e.data.length
      · have hval : e.apply cache x = e.data[x - e.address] :=
          Memory.store_of_mem hin.1 hin.2
        refine Or.inr ⟨by omega, ?_⟩
        have hsub : x - address = front.length + (x - e.address) := by omega
        rw [hval, hvalue, hsub, List.append_assoc, List.getElem?_append_right (by omega),
          Nat.add_sub_cancel_left, List.getElem?_append_left hin.2,
          List.getElem?_eq_getElem hin.2]
      · left
        by_cases hlt : x < e.address
        · exact Memory.store_of_lt hlt
        · exact Memory.store_of_ge (by omega)
    · exact Or.inr hx

theorem tornOf_inRange {c : Config} {rs : List Record} (hrs : ∀ r ∈ rs, r.Valid c) {k : ℕ}
    {e : Entry} (h : tornOf c rs k = some e) : e.InRange c := by
  induction rs generalizing k with
  | nil => cases h
  | cons r rs ih =>
    simp only [tornOf] at h
    split_ifs at h
    · rw [← Option.some.inj h]
      exact tornEntry_inRange (hrs r List.mem_cons_self).inRange
    · exact ih (fun r' hr' => hrs r' (List.mem_cons_of_mem _ hr')) h

/-- The cut entry comes last, so its bytes show. -/
theorem applyAll_torn {cache : Memory UInt8} {es : List Entry} {e : Entry} {i : ℕ}
    (hi : i < e.data.length) : applyAll cache (es ++ [e]) (e.address + i) = e.data[i] := by
  rw [applyAll_append]
  exact Memory.store_add hi

/-- A loss of power in a call is harmless exactly when the cut entry is. -/
theorem crashSafe_iff (c : Config) (hL : c.logicalSize ≤ 2 ^ 19) (s : State)
    (hs : Reachable c s) (address : ℕ) (value : List UInt8)
    (hrange : address + value.length ≤ c.logicalSize)
    (hcons : (write c address value s).1 ≠ .consolidated) (k : ℕ) :
    CrashSafe c s address value k ↔ TornHarmless c s address value k := by
  have hsync := inSync_reachable hL hs
  have hlater : ∀ {t : State} {img : Memory UInt8}, Models c (init c t).2 img →
      ∀ ops : List Op, (∀ op ∈ ops, op.InRange c) →
        Persisted c (StateMachine.run (step c) (init c t).2 ops)
          (StateMachine.run specStep (init c t).2.cache ops) :=
    fun hmodels ops hops => (models_run hL ⟨hmodels.1, fun _ _ => rfl⟩ hops).persisted
  by_cases heq : s.cache.load address value.length = value
  · refine ⟨fun _ hne => absurd heq hne, fun _ t ht hflash => ?_⟩
    rw [callWrites_of_eq hrange heq] at hflash
    have hsame : t.flash = s.flash := by simpa [powerLoss] using hflash
    have hmodels := models_init ht (hsame ▸ hsync.stored)
    exact ⟨fun x hx => Or.inl (hmodels.2 x hx), hlater hmodels⟩
  have henc := encode_encodes hrange (Nat.le_trans hrange hL)
  obtain ⟨b, hb⟩ := stored_powerLoss (k := k) hL hsync hrange heq hcons
  obtain ⟨done, hcut, hdone⟩ := cutEntries_eq (c := c) (encode c address value) k
  have hparts : ∀ e ∈ done, e.PartOf address value := by
    intro e he
    obtain ⟨r, hr, rfl⟩ := hdone e he
    exact henc.partOf r hr
  have hpart := applyAll_partOf done hparts s.cache
  rw [hcut] at hb
  constructor
  · intro h _ e he i hi
    rw [he] at hb
    have hin : e.address + e.data.length ≤ c.logicalSize := tornOf_inRange henc.valid he
    have hno : ({ blankState with flash := powerLoss s.flash (callWrites c address value s) k }
        : State).NoFailure := fun _ => rfl
    have hbyte := (h _ hno rfl).1 (e.address + i) (by omega)
    rw [(models_init hno hb).2 (e.address + i) (by omega), Option.toList_some,
      applyAll_torn hi] at hbyte
    exact hbyte
  · intro h t ht hflash
    have hmodels := models_init ht (hflash ▸ hb)
    refine ⟨fun x hx => ?_, hlater hmodels⟩
    rw [hmodels.2 x hx]
    cases htorn : tornOf c (encode c address value) k with
    | none => simpa using hpart x
    | some e =>
      rw [Option.toList_some]
      by_cases hin : e.address ≤ x ∧ x - e.address < e.data.length
      · obtain ⟨i, rfl⟩ := Nat.exists_eq_add_of_le hin.1
        have hi : i < e.data.length := by omega
        rw [applyAll_torn hi]
        exact h heq e htorn i hi
      · have hout : applyAll s.cache (done ++ [e]) x = applyAll s.cache done x := by
          rw [applyAll_append]
          by_cases hlt : x < e.address
          · exact Memory.store_of_lt hlt
          · exact Memory.store_of_ge (by omega)
        rw [hout]
        exact hpart x

/-- A store of 160 bytes for 80 bytes of logical data, written two bytes at a time, so
that the addresses from 64 on need multibyte entries. -/
def tornConfig : Config where
  writeSize := smallConfig.writeSize
  backingSize := 160
  logicalSize := 80
  writeSize_eq := smallConfig.writeSize_eq
  logicalSize_pos := by decide
  logicalSize_le := by decide
  logicalSize_mod := by decide
  backingSize_mod := by decide
  backingSize_addressable := by decide

/-- The store holds a 9 at address 0. -/
def nineState : State :=
  step tornConfig (init tornConfig blankState).2 (.write 0 [9])

theorem reachable_nineState : Reachable tornConfig nineState :=
  .call (.firstBoot ⟨fun _ _ => rfl, fun _ => rfl⟩) (by simp [Op.InRange, tornConfig])

/-- Cut behind its second word, the entry of two bytes holds a zero where the store held
one, and the power loss does no harm. -/
theorem crashSafe_secondWord : CrashSafe tornConfig nineState 70 [5, 6] 2 := by
  refine (crashSafe_iff tornConfig (by decide) nineState reachable_nineState 70 [5, 6] (by decide)
    (by decide +kernel) 2).mpr fun _ e he i hi => ?_
  have htorn : tornOf tornConfig (encode tornConfig 70 [5, 6]) 2 = some ⟨6, 70, [5, 0]⟩ := by
    decide +kernel
  rw [htorn] at he
  obtain rfl := Option.some.inj he
  have hold : nineState.cache 71 = 0 := by decide +kernel
  have hcases : i = 0 ∨ i = 1 := by
    simp only [List.length_cons, List.length_nil] at hi
    omega
  rcases hcases with rfl | rfl
  · right
    simp
  · left
    simpa using hold.symm

/-- Cut behind its first word, the entry of two bytes at address 70 is read as two zeros
at address 0. -/
theorem not_crashSafe_firstWord : ¬ CrashSafe tornConfig nineState 70 [5, 6] 1 := by
  intro h
  have hold : nineState.cache 0 = 9 := by decide +kernel
  have hnew : (init tornConfig { blankState with
      flash := powerLoss nineState.flash (callWrites tornConfig 70 [5, 6] nineState) 1 }).2.cache 0
      = 0 := by
    decide +kernel
  generalize hflash : powerLoss nineState.flash (callWrites tornConfig 70 [5, 6] nineState) 1 =
    flash at hnew
  have hbyte := (h { blankState with flash := flash } (fun _ => rfl) hflash.symm).1 0 (by decide)
  rw [hold, hnew] at hbyte
  exact absurd hbyte (by decide)
end WearLeveling
end VialQmk
