import VialQmk.WearLeveling.Playback

/-!
# Wear leveling - appending to the log

The write loop is a pure choice of log entries followed by the append of their
words.  The entries it chooses decode to themselves and together hold the data, and
an append either writes all its words, fails at one of them, or ends in a
consolidation.

Main results:

- Theorem {lit}`writeRaw_eq`: the write loop appends the words of {lit}`encode`.
- Theorem {lit}`encode_valid`: every encoded entry is accepted by the playback.
- Theorem {lit}`applyAll_encode`: the encoded entries hold exactly the data.
- Theorem {lit}`appendWords_spec`: what an append does for every pattern of failures.
-/

namespace VialQmk
namespace WearLeveling

/-! ## The entries of a write -/

/-- An entry with the encoding that goes to the log. -/
structure Record where
  entry : Entry
  log : LogEntry

/-- The words of a record, in the order in which they are written. -/
def Record.words (c : Config) (r : Record) : List Word :=
  (List.range (r.entry.size / c.writeSize)).map fun i => r.log.load (c.writeSize * i) c.writeSize

/-- The bytes of a record in the log. -/
def Record.bytes (r : Record) : List UInt8 :=
  r.log.load 0 r.entry.size

/-- The record of a multibyte entry. -/
def multibyteRecord (c : Config) (address : ℕ) (value : List UInt8) : Record :=
  ⟨⟨c.multibyteSize value.length, address, value⟩, LogEntry.multibyteEntry address value⟩

/-- The record of one byte at an address below 64. -/
def optimized64Record (address : ℕ) (value : UInt8) : Record :=
  ⟨⟨2, address, [value]⟩, LogEntry.makeOptimized64 address value⟩

/-- The record of a word that is 0 or 1. -/
def word01Record (address value : ℕ) : Record :=
  ⟨⟨2, address, [UInt8.ofNat value, 0]⟩, LogEntry.makeWord01 address value⟩

/-- The records {lit}`writeRawLoop` writes. -/
def encodeLoop (c : Config) : ℕ → ℕ → List UInt8 → List Record
  | 0, _, _ => []
  | n + 1, address, p =>
    if p = [] then []
    else
      let v := (p[1]?.getD 0).toNat <<< 8 ||| (p[0]?.getD 0).toNat
      if c.writeSize = 2 ∧ 2 ≤ p.length ∧ address % 2 = 0 ∧ address < 16384 ∧ v ≤ 1 then
        word01Record address v :: encodeLoop c n ((address + 2) % 2 ^ 32) (p.drop 2)
      else if c.writeSize = 2 ∧ address < 64 then
        optimized64Record address (p[0]?.getD 0) ::
          encodeLoop c n ((address + 1) % 2 ^ 32) (p.drop 1)
      else
        let thisLength := min LogEntry.multibyteMaxBytes p.length
        multibyteRecord c address (p.take thisLength) ::
          encodeLoop c n ((address + thisLength) % 2 ^ 32) (p.drop thisLength)

/-- The records of a write. -/
def encode (c : Config) (address : ℕ) (value : List UInt8) : List Record :=
  encodeLoop c value.length address value

/-- Append words to the log until one of them does not succeed. -/
def appendWords (c : Config) : List Word → State → Status × State
  | [], s => (.success, s)
  | w :: ws, s => onSuccess (appendRaw c w s) (appendWords c ws)

/-! ## The write loop appends the encoded words -/

@[simp]
theorem onSuccess_success (s : State) (f : State → Status × State) :
    onSuccess (.success, s) f = f s :=
  rfl

theorem onSuccess_assoc (r : Status × State) (f g : State → Status × State) :
    onSuccess (onSuccess r f) g = onSuccess r fun s => onSuccess (f s) g := by
  obtain ⟨status, s⟩ := r
  cases status <;> rfl

@[simp]
theorem onSuccess_pure (r : Status × State) : (onSuccess r fun s => (.success, s)) = r := by
  obtain ⟨status, s⟩ := r
  cases status <;> rfl

theorem appendWords_append (c : Config) (ws ws' : List Word) (s : State) :
    appendWords c (ws ++ ws') s = onSuccess (appendWords c ws s) (appendWords c ws') := by
  induction ws generalizing s with
  | nil => rfl
  | cons w ws ih => simp only [List.cons_append, appendWords, onSuccess_assoc, funext ih]

/-- A one-word record. -/
theorem words_singleton {c : Config} {r : Record} (h : r.entry.size = c.writeSize) :
    r.words c = [r.log.load 0 c.writeSize] := by
  simp [Record.words, h, Nat.div_self c.writeSize_pos]

theorem writeRawMultibyte_eq {c : Config} {address : ℕ} {value : List UInt8}
    (hlen : value.length ≤ 5) (s : State) :
    writeRawMultibyte c address value s =
      appendWords c ((multibyteRecord c address value).words c) s := by
  rcases c.writeSize_eq with hW | hW | hW
  · by_cases h1 : 1 < value.length
    · by_cases h3 : 3 < value.length
      · simp [writeRawMultibyte, multibyteRecord, Record.words, Config.multibyteSize, hW, h1, h3,
          List.range_succ, appendWords]
      · simp [writeRawMultibyte, multibyteRecord, Record.words, Config.multibyteSize, hW, h1, h3,
          List.range_succ, appendWords]
    · have h3 : ¬ 3 < value.length := by omega
      simp [writeRawMultibyte, multibyteRecord, Record.words, Config.multibyteSize, hW, h1, h3,
        List.range_succ, appendWords]
  · by_cases h1 : 1 < value.length
    · simp [writeRawMultibyte, multibyteRecord, Record.words, Config.multibyteSize, hW, h1,
        List.range_succ, appendWords]
    · simp [writeRawMultibyte, multibyteRecord, Record.words, Config.multibyteSize, hW, h1,
        List.range_succ, appendWords]
  · simp [writeRawMultibyte, multibyteRecord, Record.words, Config.multibyteSize, hW,
      List.range_succ, appendWords]

theorem writeRawLoop_eq (c : Config) (n address : ℕ) (p : List UInt8) (s : State) :
    writeRawLoop c n address p s =
      appendWords c ((encodeLoop c n address p).flatMap (Record.words c)) s := by
  induction n generalizing address p s with
  | zero => rfl
  | succ n ih =>
    by_cases hp : p = []
    · simp [writeRawLoop, encodeLoop, hp, appendWords]
    · simp only [writeRawLoop, encodeLoop, if_neg hp]
      split_ifs with hword hopt
      · have hsize : (word01Record address
            ((p[1]?.getD 0).toNat <<< 8 ||| (p[0]?.getD 0).toNat)).entry.size = c.writeSize :=
          hword.1.symm
        rw [List.flatMap_cons, appendWords_append, words_singleton hsize, hword.1]
        simp only [appendWords, onSuccess_pure, ih]
        rfl
      · have hsize : (optimized64Record address (p[0]?.getD 0)).entry.size = c.writeSize :=
          hopt.1.symm
        rw [List.flatMap_cons, appendWords_append, words_singleton hsize, hopt.1]
        simp only [appendWords, onSuccess_pure, ih]
        rfl
      · have hlen : (p.take (min LogEntry.multibyteMaxBytes p.length)).length ≤ 5 := by
          rw [List.length_take, LogEntry.multibyteMaxBytes]
          omega
        rw [List.flatMap_cons, appendWords_append, writeRawMultibyte_eq hlen]
        simp only [ih]

/-- The write loop appends the words of the encoded entries. -/
theorem writeRaw_eq (c : Config) (address : ℕ) (value : List UInt8) (s : State) :
    writeRaw c address value s =
      appendWords c ((encode c address value).flatMap (Record.words c)) s :=
  writeRawLoop_eq c value.length address value s

/-! ## The encoded entries -/

/-- A record whose bytes are an entry that the playback accepts.  Only the records of
multibyte entries take more than a word. -/
structure Record.Valid (c : Config) (r : Record) : Prop where
  notEmpty : ¬ r.log.IsEmpty c
  decode : r.log.decode c = some r.entry
  short : r.entry.data.length ≤ LogEntry.multibyteMaxBytes
  inRange : r.entry.InRange c
  shape : r.entry.size = c.writeSize ∨ ∃ address value, 0 < value.length ∧ value.length ≤ 5 ∧
    address < 2 ^ 19 ∧ r = multibyteRecord c address value

/-- A first byte that is not zero starts an entry. -/
theorem notEmpty_of_zero {c : Config} {log : LogEntry} (h : (log 0).toNat ≠ 0) :
    ¬ log.IsEmpty c := by
  intro hempty
  exact h (by rw [hempty 0 c.writeSize_pos]; rfl)

/-- The first byte of a multibyte entry holds its length. -/
theorem multibyteEntry_zero {address : ℕ} {value : List UInt8} (hpos : 0 < value.length)
    (hlen : value.length ≤ 5) : (LogEntry.multibyteEntry address value 0).toNat ≠ 0 := by
  rw [LogEntry.multibyteEntry, Memory.store_of_lt (by omega), LogEntry.makeMultibyte_zero]
  omega

theorem multibyteRecord_valid {c : Config} {address : ℕ} {value : List UInt8}
    (hpos : 0 < value.length) (hlen : value.length ≤ 5) (haddr : address < 2 ^ 19)
    (hrange : address + value.length ≤ c.logicalSize) :
    (multibyteRecord c address value).Valid c :=
  ⟨notEmpty_of_zero (multibyteEntry_zero hpos hlen),
    LogEntry.decode_makeMultibyte haddr (by omega), hlen, hrange,
    Or.inr ⟨address, value, hpos, hlen, haddr, rfl⟩⟩

theorem optimized64Record_valid {c : Config} {address : ℕ} {value : UInt8}
    (hW : c.writeSize = 2) (haddr : address < 64) (hrange : address + 1 ≤ c.logicalSize) :
    (optimized64Record address value).Valid c := by
  refine ⟨notEmpty_of_zero ?_, LogEntry.decode_makeOptimized64 hW haddr, ?_, hrange,
    Or.inl hW.symm⟩
  · show (LogEntry.makeOptimized64 address value 0).toNat ≠ 0
    rw [LogEntry.makeOptimized64_zero _ haddr]
    omega
  · simp [optimized64Record, LogEntry.multibyteMaxBytes]

theorem word01Record_valid {c : Config} {address value : ℕ} (hW : c.writeSize = 2)
    (hmod : address % 2 = 0) (haddr : address < 16384) (hvalue : value ≤ 1)
    (hrange : address + 2 ≤ c.logicalSize) : (word01Record address value).Valid c := by
  refine ⟨notEmpty_of_zero ?_, LogEntry.decode_makeWord01 hW hmod haddr hvalue, ?_, hrange,
    Or.inl hW.symm⟩
  · show (LogEntry.makeWord01 address value 0).toNat ≠ 0
    rw [LogEntry.makeWord01_zero haddr hvalue]
    omega
  · simp [word01Record, LogEntry.multibyteMaxBytes]

/-- The upper byte of a word that is at most one. -/
theorem word_le_one {x y : UInt8} (h : y.toNat <<< 8 ||| x.toNat ≤ 1) : y = 0 := by
  have hx : x.toNat < 256 := x.toNat_lt
  rw [LogEntry.shiftLeft_or_eq_add hx] at h
  have hy : y.toNat = 0 := by omega
  exact UInt8.toNat_inj.mp hy

/-- The entry holds a part of the data {lit}`value` for {lit}`address`. -/
def Entry.PartOf (e : Entry) (address : ℕ) (value : List UInt8) : Prop :=
  ∃ front back, value = front ++ e.data ++ back ∧ e.address = address + front.length

/-- The records are accepted by the playback, and together hold exactly the data. -/
structure Encodes (c : Config) (rs : List Record) (address : ℕ) (value : List UInt8) :
    Prop where
  valid : ∀ r ∈ rs, r.Valid c
  partOf : ∀ r ∈ rs, r.entry.PartOf address value
  apply : ∀ cache, applyAll cache (rs.map Record.entry) = cache.store address value

/-- One more record in front. -/
theorem Encodes.cons {c : Config} {r : Record} {rs : List Record} {address : ℕ}
    {value : List UInt8} (rest : List UInt8) (hr : r.Valid c) (haddr : r.entry.address = address)
    (hvalue : value = r.entry.data ++ rest)
    (h : Encodes c rs (address + r.entry.data.length) rest) :
    Encodes c (r :: rs) address value := by
  refine ⟨fun r' hr' => ?_, fun r' hr' => ?_, fun cache => ?_⟩
  · rcases List.mem_cons.mp hr' with rfl | hmem
    · exact hr
    · exact h.valid r' hmem
  · rcases List.mem_cons.mp hr' with rfl | hmem
    · exact ⟨[], rest, by simpa using hvalue, by simpa using haddr⟩
    · obtain ⟨front, back, hrest, haddr'⟩ := h.partOf r' hmem
      refine ⟨r.entry.data ++ front, back, ?_, ?_⟩
      · rw [hvalue, hrest]
        simp
      · rw [haddr', List.length_append, Nat.add_assoc]
  · rw [List.map_cons, applyAll_cons, h.apply, Entry.apply, haddr, hvalue, Memory.store_append]

theorem encodeLoop_encodes {c : Config} (n : ℕ) :
    ∀ (address : ℕ) (p : List UInt8), p.length ≤ n → address + p.length ≤ c.logicalSize →
      address + p.length ≤ 2 ^ 19 → Encodes c (encodeLoop c n address p) address p := by
  induction n with
  | zero =>
    intro address p hn _ _
    have hp : p = [] := List.eq_nil_of_length_eq_zero (by omega)
    subst hp
    exact ⟨by simp [encodeLoop], by simp [encodeLoop], by simp [encodeLoop]⟩
  | succ n ih =>
    intro address p hn hrange hL
    by_cases hp : p = []
    · subst hp
      exact ⟨by simp [encodeLoop], by simp [encodeLoop], by simp [encodeLoop]⟩
    have hpos : 0 < p.length := List.length_pos_iff.mpr hp
    have hmod : ∀ k, k ≤ p.length → (address + k) % 2 ^ 32 = address + k :=
      fun k hk => Nat.mod_eq_of_lt (by omega)
    simp only [encodeLoop, if_neg hp]
    split_ifs with hword hopt
    · obtain ⟨hW, hlen, heven, hlt, hvalue⟩ := hword
      obtain ⟨x, y, q, rfl⟩ : ∃ x y q, p = x :: y :: q := by
        rcases p with _ | ⟨x, _ | ⟨y, q⟩⟩
        · simp at hlen
        · simp at hlen
        · exact ⟨x, y, q, rfl⟩
      simp only [List.getElem?_cons_zero, List.getElem?_cons_succ, Option.getD_some] at hvalue ⊢
      have hy := word_le_one hvalue
      simp only [List.length_cons] at hn hrange hL
      refine Encodes.cons q
        (word01Record_valid hW heven hlt hvalue (by omega)) rfl ?_ ?_
      · simp [word01Record, hy]
      · rw [hmod 2 (by simp)]
        exact ih (address + 2) q (by omega) (by omega) (by omega)
    · obtain ⟨x, q, rfl⟩ := List.exists_cons_of_ne_nil hp
      simp only [List.length_cons] at hn hrange hL
      refine Encodes.cons q (optimized64Record_valid hopt.1 hopt.2 (by omega)) rfl
        (by simp [optimized64Record]) ?_
      rw [hmod 1 (by simp)]
      exact ih (address + 1) q (by omega) (by omega) (by omega)
    · have hthis : (p.take (min LogEntry.multibyteMaxBytes p.length)).length =
          min LogEntry.multibyteMaxBytes p.length := by
        rw [List.length_take]
        omega
      have hmax : LogEntry.multibyteMaxBytes = 5 := rfl
      refine Encodes.cons (p.drop (min LogEntry.multibyteMaxBytes p.length))
        (multibyteRecord_valid (by omega) (by omega) (by omega) (by omega)) rfl
        (List.take_append_drop _ p).symm ?_
      rw [hmod _ (by omega)]
      have hrest := ih (address + min LogEntry.multibyteMaxBytes p.length)
        (p.drop (min LogEntry.multibyteMaxBytes p.length))
        (by rw [List.length_drop]; omega) (by rw [List.length_drop]; omega)
        (by rw [List.length_drop]; omega)
      have hdata : (multibyteRecord c address
          (p.take (min LogEntry.multibyteMaxBytes p.length))).entry.data.length =
          min LogEntry.multibyteMaxBytes p.length := hthis
      rwa [hdata]

/-- The records of a write in range, below the largest address that a multibyte entry
can hold, hold exactly its data. -/
theorem encode_encodes {c : Config} {address : ℕ} {value : List UInt8}
    (hrange : address + value.length ≤ c.logicalSize) (hL : address + value.length ≤ 2 ^ 19) :
    Encodes c (encode c address value) address value :=
  encodeLoop_encodes value.length address value (Nat.le_refl _) hrange hL

/-! ## Records in the store -/

/-- The words of a record are its bytes. -/
theorem words_flatten {c : Config} {r : Record} (h : c.writeSize ∣ r.entry.size) :
    (r.words c).flatten = r.bytes := by
  obtain ⟨k, hk⟩ := h
  have hdiv : r.entry.size / c.writeSize = k := by
    rw [hk, Nat.mul_div_cancel_left k c.writeSize_pos]
  rw [Record.words, Record.bytes, hdiv, hk]
  clear hk hdiv
  induction k with
  | zero => simp
  | succ k ih =>
    rw [List.range_succ, List.map_append, List.flatten_append, ih, Nat.mul_succ,
      Memory.load_add, Nat.zero_add]
    simp

@[simp]
theorem Record.bytes_length (r : Record) : r.bytes.length = r.entry.size := by
  simp [Record.bytes]

/-- The bytes of a list of records. -/
def recordsBytes (rs : List Record) : List UInt8 :=
  rs.flatMap Record.bytes

theorem recordsWords_flatten {c : Config} {rs : List Record} (h : ∀ r ∈ rs, r.Valid c) :
    (rs.flatMap (Record.words c)).flatten = recordsBytes rs := by
  induction rs with
  | nil => rfl
  | cons r rs ih =>
    have hr := words_flatten (LogEntry.size_words (h r List.mem_cons_self).decode).1
    rw [List.flatMap_cons, List.flatten_append, hr, ih fun r' hr' => h r' (List.mem_cons_of_mem _ hr')]
    rfl

theorem words_length_of_mem {c : Config} {rs : List Record} {w : Word}
    (hw : w ∈ rs.flatMap (Record.words c)) : w.length = c.writeSize := by
  obtain ⟨r, -, hmem⟩ := List.mem_flatMap.mp hw
  obtain ⟨i, -, rfl⟩ := List.mem_map.mp hmem
  exact Memory.load_length _ _ _

/-- A record whose bytes are in the store is an entry of the store. -/
theorem Record.Valid.holds {c : Config} {r : Record} {flash : Memory UInt8} {a : ℕ}
    (h : r.Valid c) (hload : flash.load a r.entry.size = r.bytes) : Holds c flash a r.entry := by
  have hbytes : ∀ i, i < r.entry.size → r.log i = entryAt flash a i := by
    intro i hi
    have hget := congrArg (fun l => l[i]?) hload
    simp only [Record.bytes, Memory.load_getElem? _ hi, Nat.zero_add, Option.some.injEq] at hget
    exact hget.symm
  refine ⟨fun hempty => h.notEmpty fun i hi => ?_, ?_, h.short, h.inRange⟩
  · rw [hbytes i (Nat.lt_of_lt_of_le hi (LogEntry.writeSize_le_size h.decode))]
    exact hempty i hi
  · exact LogEntry.decode_congr h.decode h.short hbytes

/-- Records whose bytes are in the store form a chain of entries. -/
theorem entries_of_load {c : Config} {flash : Memory UInt8} {rs : List Record}
    (h : ∀ r ∈ rs, r.Valid c) {a : ℕ}
    (hload : flash.load a (recordsBytes rs).length = recordsBytes rs) :
    Entries c flash a (rs.map Record.entry) (a + (recordsBytes rs).length) := by
  induction rs generalizing a with
  | nil => rfl
  | cons r rs ih =>
    have hcons : recordsBytes (r :: rs) = r.bytes ++ recordsBytes rs := rfl
    rw [hcons, List.length_append, Memory.load_add, Record.bytes_length] at hload
    obtain ⟨hfirst, hrest⟩ := List.append_inj hload (by simp)
    refine ⟨(h r List.mem_cons_self).holds hfirst, ?_⟩
    have htail := ih (fun r' hr' => h r' (List.mem_cons_of_mem _ hr')) hrest
    rwa [hcons, List.length_append, Record.bytes_length, ← Nat.add_assoc]

/-! ## Appending words -/

/-- The state after words went to the log without an end or a failure. -/
def State.afterWords (s s' : State) (ws : List Word) : Prop :=
  s'.flash = s.flash.store s.writeAddress ws.flatten ∧
    s'.writeAddress = s.writeAddress + ws.flatten.length

/-- What an append of words does: it keeps the cache; on success all the words are
in the log and the log is not full; after a consolidation the store holds the
cache; and behind the write pointer the store stays empty. -/
structure Appended (c : Config) (ws : List Word) (s : State) (r : Status × State) : Prop where
  cache : r.2.cache = s.cache
  success : r.1 = .success → s.afterWords r.2 ws ∧
    (ws ≠ [] → r.2.writeAddress < c.backingSize)
  consolidated : r.1 = .consolidated → r.2.writeAddress = c.logStart ∧
    ∃ flash, r.2.flash = consolidatedFlash c s.cache flash
  clean : s.Clean c → r.2.Clean c
  noFailure : s.NoFailure → r.1 ≠ .failed ∧ r.2.NoFailure

theorem Appended.refl (c : Config) (s : State) : Appended c [] s (.success, s) := by
  refine ⟨rfl, fun _ => ⟨⟨by simp, by simp⟩, fun h => absurd rfl h⟩, ?_, id, fun h => ⟨?_, h⟩⟩
  · intro h
    cases h
  · simp

/-- Appends compose. -/
theorem Appended.onSuccess {c : Config} {ws ws' : List Word} {s : State}
    {r : Status × State} {f : State → Status × State} (h : Appended c ws s r)
    (h' : r.1 = .success → Appended c ws' r.2 (f r.2)) :
    Appended c (ws ++ ws') s (onSuccess r f) := by
  obtain ⟨status, s₁⟩ := r
  cases status with
  | failed =>
    exact ⟨h.cache, by rintro ⟨⟩, by rintro ⟨⟩, h.clean, h.noFailure⟩
  | consolidated =>
    exact ⟨h.cache, by rintro ⟨⟩, h.consolidated, h.clean, h.noFailure⟩
  | success =>
    obtain ⟨⟨hflash, hptr⟩, hlt⟩ := h.success rfl
    replace h' := h' rfl
    rw [onSuccess_success]
    dsimp only at h' hflash hptr hlt
    refine ⟨h'.cache.trans h.cache, fun hs => ?_, fun hs => ?_, h'.clean ∘ h.clean,
      fun hno => h'.noFailure (h.noFailure hno).2⟩
    · obtain ⟨⟨hflash', hptr'⟩, hlt'⟩ := h'.success hs
      refine ⟨⟨?_, ?_⟩, fun hne => ?_⟩
      · rw [hflash', hflash, hptr, List.flatten_append, Memory.store_append]
      · rw [hptr', hptr, List.flatten_append, List.length_append, Nat.add_assoc]
      · by_cases hws' : ws' = []
        · have hws : ws ≠ [] := by simpa [hws'] using hne
          rw [hptr', hws']
          exact hlt hws
        · exact hlt' hws'
    · have hcons := h'.consolidated hs
      rwa [h.cache] at hcons

/-- A consolidation when the log is full, as an append of nothing. -/
theorem consolidateIfNeeded_appended (c : Config) (s : State) :
    Appended c [] s (consolidateIfNeeded c s) := by
  rw [consolidateIfNeeded]
  split_ifs
  · obtain ⟨hcache, hcase, hok⟩ := consolidateForce_spec c s
    refine ⟨hcache, fun hs => ?_, fun hs => ?_, consolidateForce_clean, fun hno => ⟨?_, (hok hno).2⟩⟩
    · rcases hcase with ⟨h, -⟩ | ⟨h, -⟩ | ⟨h, -⟩ <;> rw [h] at hs <;> cases hs
    · rcases hcase with ⟨h, -⟩ | ⟨h, -⟩ | ⟨-, hptr, hflash⟩
      · rw [h] at hs
        cases hs
      · rw [h] at hs
        cases hs
      · exact ⟨hptr, s.flash, hflash⟩
    · rw [(hok hno).1]
      simp
  · exact Appended.refl c s

theorem appendRaw_appended {c : Config} {w : Word} (hw : w.length = c.writeSize) (s : State) :
    Appended c [w] s (appendRaw c w s) := by
  obtain ⟨hram, hflash, hok⟩ := backingStoreWrite_spec s.writeAddress w s
  cases h : (backingStoreWrite s.writeAddress w s).1 with
  | false =>
    simp only [appendRaw, h, Bool.false_eq_true, if_false]
    simp only [h, Bool.false_eq_true, if_false] at hflash
    refine ⟨hram.cache, by rintro ⟨⟩, by rintro ⟨⟩, fun hclean i hle hlt => ?_, fun hno => ?_⟩
    · rw [hram.writeAddress] at hle
      rw [hflash]
      exact hclean i hle hlt
    · exact absurd (hok hno) (by simp [h])
  | true =>
    simp only [appendRaw, h, if_true]
    simp only [h, if_true] at hflash
    generalize backingStoreWrite s.writeAddress w s = r at *
    set s₁ : State := { r.2 with writeAddress := r.2.writeAddress + c.writeSize } with hs₁
    have hptr : s₁.writeAddress = s.writeAddress + w.length := by
      rw [hs₁, hw, ← hram.writeAddress]
    have hflash₁ : s₁.flash = s.flash.store s.writeAddress w := hflash
    have happ := consolidateIfNeeded_appended c s₁
    refine ⟨happ.cache.trans hram.cache, fun hs => ?_, fun hs => ?_, fun hclean => happ.clean ?_,
      fun hno => happ.noFailure (hram.noFailure hno)⟩
    · obtain ⟨⟨hf, hp⟩, -⟩ := happ.success hs
      refine ⟨⟨?_, ?_⟩, fun _ => ?_⟩
      · rw [hf, hflash₁]
        simp
      · rw [hp, hptr]
        simp
      · rw [consolidateIfNeeded] at hs ⊢
        split_ifs at hs ⊢ with hfull
        · have := consolidateForce_spec c s₁
          obtain ⟨-, ⟨h, -⟩ | ⟨h, -⟩ | ⟨h, -⟩, -⟩ := this <;> rw [h] at hs <;> cases hs
        · exact Nat.lt_of_not_le hfull
    · have hcons := happ.consolidated hs
      rwa [show s₁.cache = s.cache from hram.cache] at hcons
    · intro i hle hlt
      rw [hptr] at hle
      rw [hflash₁, Memory.store_of_ge hle]
      exact hclean i (by omega) hlt

/-- What an append does, by induction on the words. -/
theorem appendWords_spec {c : Config} {ws : List Word} (hws : ∀ w ∈ ws, w.length = c.writeSize)
    (s : State) : Appended c ws s (appendWords c ws s) := by
  induction ws generalizing s with
  | nil => exact Appended.refl c s
  | cons w ws ih =>
    have hfirst := appendRaw_appended (hws w List.mem_cons_self) s
    exact Appended.onSuccess hfirst fun _ =>
      ih (fun w' hw' => hws w' (List.mem_cons_of_mem _ hw')) _

end WearLeveling
end VialQmk
