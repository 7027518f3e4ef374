import VialQmk.WearLeveling.Log

/-!
# Wear leveling - log playback without failures

One round of the playback applies one entry of the log.  By induction on the chain
of entries the loop applies all of them and stops at the end of the log, so a boot
rebuilds the logical data that the store holds.

Main results:

- Theorem {lit}`playbackBody_holds`: one round applies one entry.
- Theorem {lit}`playbackLoop_entries`: the loop applies the whole log.
- Theorem {lit}`init_stored`: a boot without failures reads back what the store holds.
-/

namespace VialQmk
namespace WearLeveling

/-! ## The fields of a header -/

theorem LogEntry.getType_congr {log log' : LogEntry} (h : log 0 = log' 0) :
    log.getType = log'.getType := by
  simp only [getType, h]

theorem LogEntry.multibyteGetLength_congr {log log' : LogEntry} (h : log 0 = log' 0) :
    log.multibyteGetLength = log'.multibyteGetLength := by
  simp only [multibyteGetLength, h]

theorem LogEntry.multibyteGetAddress_congr {log log' : LogEntry} (h : ∀ i, i < 3 → log i = log' i) :
    log.multibyteGetAddress = log'.multibyteGetAddress := by
  simp only [multibyteGetAddress, h 0 (by omega), h 1 (by omega), h 2 (by omega)]

/-! ## One round -/

/-- The first {lit}`n` bytes of the entry at {lit}`a` are in {lit}`log`. -/
def Fetched (flash : Memory UInt8) (a n : ℕ) (log : LogEntry) : Prop :=
  ∀ i, i < n → log i = entryAt flash a i

/-- One more word. -/
theorem Fetched.store {flash : Memory UInt8} {a n : ℕ} {log : LogEntry}
    (h : Fetched flash a n log) (w : ℕ) :
    Fetched flash a (n + w) (log.store n (flash.load (a + n) w)) := by
  intro i hi
  by_cases hn : i < n
  · rw [Memory.store_of_lt hn]
    exact h i hn
  · rw [Memory.store_of_mem (by omega) (by rw [Memory.load_length]; omega), Memory.load_getElem,
      entryAt]
    congr 1
    omega

theorem Fetched.isEmpty_iff {c : Config} {flash : Memory UInt8} {a : ℕ} {log : LogEntry}
    (h : Fetched flash a c.writeSize log) : log.IsEmpty c ↔ (entryAt flash a).IsEmpty c :=
  ⟨fun hempty i hi => (h i hi) ▸ hempty i hi, fun hempty i hi => (h i hi).trans (hempty i hi)⟩

/-- The first word of the entry at {lit}`a`, as a round of the playback reads it. -/
theorem fetched_first (c : Config) (flash stack : Memory UInt8) (a : ℕ) :
    Fetched flash a c.writeSize (stack.store 0 (flash.load a c.writeSize)) := by
  have hnone : Fetched flash a 0 stack := fun i hi => absurd hi (Nat.not_lt_zero i)
  have hstore := hnone.store c.writeSize
  rwa [Nat.zero_add] at hstore

/-- The bytes of a multibyte entry that the playback reads before it looks at the address
and the length. -/
def Config.headerSize (c : Config) : ℕ :=
  c.writeSize + if c.writeSize = 2 then c.writeSize else 0

theorem Config.three_le_headerSize (c : Config) : 3 ≤ c.headerSize := by
  rcases c.writeSize_eq with hW | hW | hW <;> simp [headerSize, hW]

/-- The bytes at {lit}`a` are an entry, short enough or not, that stays inside the logical
data. -/
def Accepted (c : Config) (flash : Memory UInt8) (a : ℕ) : Prop :=
  ¬ (entryAt flash a).IsEmpty c ∧ ∃ e, (entryAt flash a).decode c = some e ∧ e.InRange c

/-- The playback reads the word {lit}`n` bytes behind {lit}`a` for the entry at {lit}`a`. -/
def Wanted (c : Config) (flash : Memory UInt8) (a n : ℕ) : Prop :=
  n = 0 ∨ (entryAt flash a).getType = .multibyte ∧ ¬ (entryAt flash a).IsEmpty c ∧
    (n < c.headerSize ∨ Accepted c flash a ∧
      n < c.multibyteSize (entryAt flash a).multibyteGetLength)

/-- The rule of a round: {lit}`inv n` holds once {lit}`n` bytes of the entry at {lit}`a`
are read, and each way in which the round ends gives {lit}`post`. -/
structure RoundRule (c : Config) (flash : Memory UInt8) (a : ℕ) (inv : ℕ → Playback → Prop)
    (post : Playback → Prop) : Prop where
  place : ∀ {n p}, inv n p → p.state.flash = flash ∧ p.address = a + n
  next : ∀ {n p}, inv n p → Wanted c flash a n → (p.state.ask (.read p.address)).1 = true →
    inv (n + c.writeSize)
      { p with state := (p.state.ask (.read p.address)).2, address := p.address + c.writeSize }
  fail : ∀ {n p}, inv n p → Wanted c flash a n → (p.state.ask (.read p.address)).1 = false →
    post (Playback.fail { p with state := (p.state.ask (.read p.address)).2 })
  empty : ∀ {p}, inv 0 p → (p.state.ask (.read p.address)).1 = true →
    (entryAt flash a).IsEmpty c →
    post { p with state := (p.state.ask (.read p.address)).2, cancelPlayback := true }
  reject : ∀ {n p}, inv n p → ((entryAt flash a).getType = .multibyte → n = c.headerSize) →
    ¬ (entryAt flash a).IsEmpty c → ¬ Accepted c flash a → post p.fail
  copy : ∀ {log p}, Accepted c flash a → (entryAt flash a).getType = .multibyte →
    Fetched flash a (c.multibyteSize (entryAt flash a).multibyteGetLength) log →
    inv (c.multibyteSize (entryAt flash a).multibyteGetLength) p →
    post { p with state := p.state.copyToCache (entryAt flash a).multibyteGetAddress log
                    (entryAt flash a).multibyteGetLength }
  optimized64 : ∀ {p}, Accepted c flash a → (entryAt flash a).getType = .optimized64 →
    c.writeSize = 2 → inv c.writeSize p →
    post { p with state := p.state.setCache (entryAt flash a).optimized64GetAddress
                    (entryAt flash a).optimized64GetValue }
  word01 : ∀ {p}, Accepted c flash a → (entryAt flash a).getType = .word01 →
    c.writeSize = 2 → inv c.writeSize p →
    post { p with state := (p.state.setCache (entryAt flash a).word01GetAddress
                    (entryAt flash a).word01GetValue).setCache
                    ((entryAt flash a).word01GetAddress + 1) 0 }

section Rule

variable {c : Config} {flash : Memory UInt8} {a n i : ℕ} {inv : ℕ → Playback → Prop}
  {post : Playback → Prop} {log : LogEntry} {p : Playback}

/-- The next word of the entry is fetched, or the round ends. -/
theorem RoundRule.fetch (h : RoundRule c flash a inv post)
    {next : LogEntry → Playback → Playback} (hp : inv n p) (hlog : Fetched flash a n log)
    (hn : n = c.writeSize * i) (hwanted : Wanted c flash a n)
    (hnext : ∀ log' p', Fetched flash a (n + c.writeSize) log' → inv (n + c.writeSize) p' →
      post (next log' p')) :
    post (fetch c i log p next) := by
  obtain ⟨hflash, haddr⟩ := h.place hp
  cases hask : (p.state.ask (.read p.address)).1 with
  | false =>
    simp only [WearLeveling.fetch, backingStoreRead, hask, Bool.false_eq_true, if_false]
    exact h.fail hp hwanted hask
  | true =>
    simp only [WearLeveling.fetch, backingStoreRead, hask, if_true]
    refine hnext _ _ ?_ (h.next hp hwanted hask)
    rw [hflash, haddr, ← hn]
    exact hlog.store c.writeSize

/-- The rule of {lit}`fetch` under a condition. -/
theorem RoundRule.fetchIf (h : RoundRule c flash a inv post)
    {next : LogEntry → Playback → Playback} {cond : Prop} [Decidable cond] (hp : inv n p)
    (hlog : Fetched flash a n log) (hn : cond → n = c.writeSize * i)
    (hwanted : cond → Wanted c flash a n)
    (hnext : ∀ log' p', Fetched flash a (n + if cond then c.writeSize else 0) log' →
      inv (n + if cond then c.writeSize else 0) p' → post (next log' p')) :
    post (fetchIf cond c i log p next) := by
  by_cases hcond : cond
  · rw [WearLeveling.fetchIf, if_pos hcond]
    simp only [if_pos hcond] at hnext
    exact h.fetch hp hlog (hn hcond) (hwanted hcond) hnext
  · rw [WearLeveling.fetchIf, if_neg hcond]
    simp only [if_neg hcond] at hnext
    exact hnext log p hlog hp

/-- What it means for a multibyte entry to be accepted. -/
theorem accepted_multibyte (hempty : ¬ (entryAt flash a).IsEmpty c)
    (htype : (entryAt flash a).getType = .multibyte) :
    Accepted c flash a ↔ (entryAt flash a).multibyteGetAddress +
      (entryAt flash a).multibyteGetLength ≤ c.logicalSize := by
  simp [Accepted, hempty, LogEntry.decode, htype, Entry.InRange]

/-- The multibyte case of a round. -/
theorem RoundRule.playMultibyte (h : RoundRule c flash a inv post)
    (hempty : ¬ (entryAt flash a).IsEmpty c) (htype : (entryAt flash a).getType = .multibyte)
    (hlog : Fetched flash a c.writeSize log) (hp : inv c.writeSize p) :
    post (playMultibyte c log p) := by
  have hcopy := @h.copy
  have hwant : ∀ n, n < c.headerSize ∨ Accepted c flash a ∧
      n < c.multibyteSize (entryAt flash a).multibyteGetLength → Wanted c flash a n :=
    fun n hn => Or.inr ⟨htype, hempty, hn⟩
  have haccept := accepted_multibyte hempty htype
  have hheader := c.three_le_headerSize
  generalize hl : (entryAt flash a).multibyteGetLength = l at *
  generalize hb : (entryAt flash a).multibyteGetAddress = b at *
  have hwords : c.headerSize + (if c.writeSize = 2 ∧ 1 < l then c.writeSize else 0) +
      (if c.writeSize = 2 ∧ 3 < l then c.writeSize else 0) +
      (if c.writeSize = 4 ∧ 1 < l then c.writeSize else 0) = c.multibyteSize l := by
    rcases c.writeSize_eq with hW | hW | hW <;>
      simp [Config.multibyteSize, Config.headerSize, hW]
  refine h.fetchIf hp hlog (fun _ => (Nat.mul_one _).symm) (fun hW => hwant _ (Or.inl ?_))
    fun log1 p1 hlog1 hp1 => ?_
  · rw [Config.headerSize, if_pos hW]
    omega
  -- the header is complete once the second of two-byte words is fetched
  change Fetched flash a c.headerSize log1 at hlog1
  change inv c.headerSize p1 at hp1
  have hlen : log1.multibyteGetLength = l :=
    hl ▸ LogEntry.multibyteGetLength_congr (hlog1 0 (by omega))
  have haddr : log1.multibyteGetAddress = b :=
    hb ▸ LogEntry.multibyteGetAddress_congr fun i hi => hlog1 i (by omega)
  simp only [hlen, haddr]
  by_cases hrange : b + l ≤ c.logicalSize
  · rw [if_neg (Nat.not_lt_of_le hrange)]
    have hacc := haccept.mpr hrange
    have hW := c.writeSize_pos
    refine h.fetchIf hp1 hlog1 (fun hc => ?_) (fun hc => hwant _ (Or.inr ⟨hacc, ?_⟩))
      fun log2 p2 hlog2 hp2 => ?_
    · rw [Config.headerSize, if_pos hc.1]
      omega
    · rw [← hwords, if_pos hc]
      omega
    refine h.fetchIf hp2 hlog2 (fun hc => ?_) (fun hc => hwant _ (Or.inr ⟨hacc, ?_⟩))
      fun log3 p3 hlog3 hp3 => ?_
    · rw [Config.headerSize, if_pos hc.1, if_pos ⟨hc.1, by omega⟩]
      omega
    · rw [← hwords, if_pos hc]
      omega
    refine h.fetchIf hp3 hlog3 (fun hc => ?_) (fun hc => hwant _ (Or.inr ⟨hacc, ?_⟩))
      fun log4 p4 hlog4 hp4 => ?_
    · simp [Config.headerSize, hc.1]
    · rw [← hwords, if_pos hc]
      omega
    rw [hwords] at hlog4 hp4
    exact hcopy hacc htype hlog4 hp4
  · rw [if_pos (Nat.lt_of_not_le hrange)]
    exact h.reject hp1 (fun _ => rfl) hempty fun hacc => hrange (haccept.mp hacc)

/-- A round whose steps follow the rule ends with its postcondition. -/
theorem RoundRule.playbackBody (flash : Memory UInt8) (a : ℕ) (inv : ℕ → Playback → Prop)
    (post : Playback → Prop) (h : RoundRule c flash a inv post) (hp : inv 0 p) :
    post (playbackBody c p) := by
  obtain ⟨hflash, haddr⟩ := h.place hp
  have hW := c.two_le_writeSize
  have hwanted : Wanted c flash a 0 := Or.inl rfl
  cases hask : (p.state.ask (.read p.address)).1 with
  | false =>
    simp only [WearLeveling.playbackBody, backingStoreRead, hask, Bool.false_eq_true, if_false]
    exact h.fail hp hwanted hask
  | true =>
    have hnext := h.next hp hwanted hask
    rw [Nat.zero_add] at hnext
    have hlog := fetched_first c p.state.flash p.state.stack p.address
    simp only [WearLeveling.playbackBody, backingStoreRead, hask, if_true]
    generalize p.state.stack.store 0 (p.state.flash.load p.address c.writeSize) = log at hlog ⊢
    rw [hflash, haddr, Nat.add_zero] at hlog
    by_cases hempty : (entryAt flash a).IsEmpty c
    · rw [if_pos (hlog.isEmpty_iff.mpr hempty)]
      exact h.empty hp hask hempty
    rw [if_neg fun hnone => hempty (hlog.isEmpty_iff.mp hnone),
      LogEntry.getType_congr (hlog 0 (by omega))]
    cases htype : (entryAt flash a).getType with
    | multibyte => exact h.playMultibyte hempty htype hlog hnext
    | optimized64 =>
      have hadr : LogEntry.optimized64GetAddress log =
          (entryAt flash a).optimized64GetAddress := by
        simp only [LogEntry.optimized64GetAddress, hlog 0 (by omega)]
      have hval : LogEntry.optimized64GetValue log = (entryAt flash a).optimized64GetValue :=
        hlog 1 (by omega)
      by_cases h2 : c.writeSize = 2
      · have haccept : Accepted c flash a ↔
            (entryAt flash a).optimized64GetAddress + 1 ≤ c.logicalSize := by
          simp [Accepted, hempty, LogEntry.decode, htype, h2, Entry.InRange]
        simp only [if_pos h2, playOptimized64, hadr, hval]
        by_cases hrange : c.logicalSize ≤ (entryAt flash a).optimized64GetAddress
        · rw [if_pos hrange]
          exact h.reject hnext (by simp [htype]) hempty fun hacc => by have := haccept.mp hacc; omega
        · rw [if_neg hrange]
          exact h.optimized64 (haccept.mpr (by omega)) htype h2 hnext
      · simp only [if_neg h2]
        exact h.reject hnext (by simp [htype]) hempty (by simp [Accepted, LogEntry.decode, htype, h2])
    | word01 =>
      have hadr : LogEntry.word01GetAddress log = (entryAt flash a).word01GetAddress := by
        simp only [LogEntry.word01GetAddress, hlog 0 (by omega), hlog 1 (by omega)]
      have hval : LogEntry.word01GetValue log = (entryAt flash a).word01GetValue := by
        simp only [LogEntry.word01GetValue, hlog 0 (by omega)]
      by_cases h2 : c.writeSize = 2
      · have haccept : Accepted c flash a ↔
            (entryAt flash a).word01GetAddress + 2 ≤ c.logicalSize := by
          simp [Accepted, hempty, LogEntry.decode, htype, h2, Entry.InRange]
        simp only [if_pos h2, playWord01, hadr, hval, Nat.add_zero]
        by_cases hrange : c.logicalSize ≤ (entryAt flash a).word01GetAddress + 1
        · rw [if_pos hrange]
          exact h.reject hnext (by simp [htype]) hempty fun hacc => by have := haccept.mp hacc; omega
        · rw [if_neg hrange]
          exact h.word01 (haccept.mpr (by omega)) htype h2 hnext
      · simp only [if_neg h2]
        exact h.reject hnext (by simp [htype]) hempty (by simp [Accepted, LogEntry.decode, htype, h2])
    | other =>
      exact h.reject hnext (by simp [htype]) hempty (by simp [Accepted, LogEntry.decode, htype])

end Rule

/-! ## Rounds without failures -/

/-- The playback goes on at {lit}`a`, with {lit}`cache` in the cache. -/
structure Playing (flash cache : Memory UInt8) (a : ℕ) (p : Playback) : Prop where
  status : p.status = .success
  cancel : p.cancelPlayback = false
  address : p.address = a
  flash : p.state.flash = flash
  cache : p.state.cache = cache
  noFailure : p.state.NoFailure

/-- The next word is read. -/
theorem Playing.next {flash cache : Memory UInt8} {a : ℕ} {p : Playback}
    (h : Playing flash cache a p) (w : ℕ) : Playing flash cache (a + w)
      { p with state := (p.state.ask (.read p.address)).2, address := p.address + w } :=
  ⟨h.status, h.cancel, congrArg (· + w) h.address, h.flash, h.cache, h.noFailure.ask_snd _⟩

/-- The cache changes. -/
theorem Playing.record {flash cache cache' : Memory UInt8} {a : ℕ} {p : Playback} {s : State}
    (h : Playing flash cache a p) (hcache : s.cache = cache') (hflash : s.flash = p.state.flash)
    (hno : p.state.NoFailure → s.NoFailure) : Playing flash cache' a { p with state := s } :=
  ⟨h.status, h.cancel, h.address, hflash.trans h.flash, hcache, hno h.noFailure⟩

/-- One round of the playback applies one entry. -/
theorem playbackBody_holds {c : Config} {flash cache : Memory UInt8} {a : ℕ} {e : Entry}
    {p : Playback} (h : Holds c flash a e) (hp : Playing flash cache a p) :
    Playing flash (e.apply cache) (a + e.size) (playbackBody c p) := by
  have hdec := h.decode
  have hshort := h.short
  refine RoundRule.playbackBody flash a (fun n p => Playing flash cache (a + n) p) _
    { place := fun hp => ⟨hp.flash, hp.address⟩
      next := fun hp _ _ => Nat.add_assoc _ _ _ ▸ hp.next c.writeSize
      fail := fun {n p} hp _ hask =>
        absurd (hp.noFailure.ask_fst (.read p.address)) (by simp [hask])
      empty := fun _ _ hempty => absurd hempty h.notEmpty
      reject := fun _ _ _ hacc => absurd ⟨h.notEmpty, e, h.decode, h.inRange⟩ hacc
      copy := ?_
      optimized64 := ?_
      word01 := ?_ } hp
  · intro log p _ htype hlog hp
    simp only [LogEntry.decode, htype, Option.some.injEq] at hdec
    subst hdec
    have hsize := LogEntry.add_le_multibyteSize (c := c)
      (n := (entryAt flash a).multibyteGetLength)
      (by simpa [LogEntry.multibyteMaxBytes] using hshort)
    refine hp.record ?_ rfl id
    simp only [State.copyToCache, hp.cache, Entry.apply]
    rw [Memory.load_congr fun i _ hi => hlog i (by omega)]
  · intro p _ htype h2 hp
    simp only [LogEntry.decode, htype, if_pos h2, Option.some.injEq] at hdec
    subst hdec
    rw [h2] at hp
    refine hp.record ?_ rfl id
    simp only [State.setCache, hp.cache, Entry.apply]
  · intro p _ htype h2 hp
    simp only [LogEntry.decode, htype, if_pos h2, Option.some.injEq] at hdec
    subst hdec
    rw [h2] at hp
    refine hp.record ?_ rfl id
    simp only [State.setCache, hp.cache, Entry.apply]
    exact (Memory.store_append cache _ [_] [0]).symm

/-- An empty word stops the playback. -/
theorem playbackBody_empty {c : Config} {flash cache : Memory UInt8} {a : ℕ}
    {p : Playback} (hempty : (entryAt flash a).IsEmpty c) (hp : Playing flash cache a p) :
    playbackBody c p =
      { p with state := (p.state.ask (.read p.address)).2, cancelPlayback := true } := by
  have hlog := fetched_first c p.state.flash p.state.stack p.address
  simp only [playbackBody, backingStoreRead, hp.noFailure.ask_fst (.read p.address), if_true]
  generalize p.state.stack.store 0 (p.state.flash.load p.address c.writeSize) = log at hlog ⊢
  rw [hp.flash, hp.address] at hlog
  rw [if_pos (hlog.isEmpty_iff.mpr hempty)]

/-! ## The loop -/

/-- The loop applies a chain of entries, one round for each. -/
theorem run_entries {c : Config} {flash cache : Memory UInt8} {a b : ℕ} {es : List Entry}
    {p : Playback} (hes : Entries c flash a es b) (ha : c.logStart ≤ a)
    (hb : b ≤ max c.backingSize c.logStart) (hp : Playing flash cache a p) :
    Playing flash (applyAll cache es) b
      (BoundedLoop.run (playbackCond c) (playbackBody c) es.length p) := by
  induction es generalizing a cache p with
  | nil =>
    have hab : a = b := hes
    rw [← hab]
    exact hp
  | cons e es ih =>
    have hle := hes.2.le
    have hsize := hes.1.writeSize_le
    have hW := c.two_le_writeSize
    have hcond : playbackCond c p = true := by
      simp only [playbackCond, hp.cancel, hp.address]
      simp
      omega
    rw [List.length_cons, BoundedLoop.run_succ_of_true hcond]
    exact ih hes.2 (by omega) (playbackBody_holds hes.1 hp)

/-- The playback stopped at {lit}`a` without a failure, with {lit}`cache` in the cache. -/
structure Played (flash cache : Memory UInt8) (a : ℕ) (p : Playback) : Prop where
  status : p.status = .success
  address : p.address = a
  flash : p.state.flash = flash
  cache : p.state.cache = cache
  noFailure : p.state.NoFailure

/-- The loop stops at the first empty word it comes to. -/
theorem played_of_run {c : Config} {flash cache : Memory UInt8} {b n : ℕ} {p : Playback}
    (hrun : Playing flash cache b (BoundedLoop.run (playbackCond c) (playbackBody c) n p))
    (hn : n + 1 ≤ c.backingSize) (hb : b < c.backingSize)
    (hempty : (entryAt flash b).IsEmpty c) : Played flash cache b (playbackLoop c p) := by
  have hlast := playbackBody_empty hempty hrun
  have hcond : playbackCond c
      (BoundedLoop.run (playbackCond c) (playbackBody c) n p) = true := by
    simp [playbackCond, hrun.cancel, hrun.address, hb]
  have hdone : BoundedLoop.run (playbackCond c) (playbackBody c) (n + 1) p =
      playbackBody c (BoundedLoop.run (playbackCond c) (playbackBody c) n p) := by
    rw [BoundedLoop.run_add, BoundedLoop.run_succ_of_true hcond, BoundedLoop.run_zero]
  have hstop : playbackCond c
      (BoundedLoop.run (playbackCond c) (playbackBody c) (n + 1) p) = false := by
    rw [hdone, hlast]
    rfl
  rw [playbackLoop, BoundedLoop.run_eq_of_done hn hstop, hdone, hlast]
  exact ⟨hrun.status, hrun.address, hrun.flash, hrun.cache, hrun.noFailure.ask_snd _⟩

/-- The loop applies the whole log. -/
theorem playbackLoop_entries {c : Config} {flash cache : Memory UInt8} {b : ℕ}
    {es : List Entry} {p : Playback} (hes : Entries c flash c.logStart es b)
    (hb : b < c.backingSize) (hempty : (entryAt flash b).IsEmpty c)
    (hp : Playing flash cache c.logStart p) :
    Played flash (applyAll cache es) b (playbackLoop c p) := by
  have hlen := hes.length_le
  have hstart : 8 ≤ c.logStart := Nat.le_add_left 8 c.logicalSize
  exact played_of_run (run_entries hes (Nat.le_refl _) (by omega) hp) (by omega) hb hempty

/-- The loop applies a log that leaves no room behind it. -/
theorem playbackLoop_full {c : Config} {flash cache : Memory UInt8} {b : ℕ}
    {es : List Entry} {p : Playback} (hes : Entries c flash c.logStart es b)
    (hb : c.backingSize ≤ b) (hle : b ≤ max c.backingSize c.logStart)
    (hp : Playing flash cache c.logStart p) :
    Played flash (applyAll cache es) b (playbackLoop c p) := by
  have hrun := run_entries hes (Nat.le_refl _) hle hp
  have hlen := hes.length_le
  have hstop : playbackCond c
      (BoundedLoop.run (playbackCond c) (playbackBody c) es.length p) = false := by
    simp only [playbackCond, hrun.cancel, hrun.address]
    simpa using hb
  rw [playbackLoop, BoundedLoop.run_eq_of_done (by omega) hstop]
  exact ⟨hrun.status, hrun.address, hrun.flash, hrun.cache, hrun.noFailure⟩

/-! ## Boot -/

/-- The consolidated data is read back, or zeros when the checksum does not match. -/
theorem readConsolidated_ok {c : Config} {s : State} (h : s.NoFailure)
    (hptr : s.writeAddress = c.logStart) :
    (readConsolidated c s).1 = .success ∧ (readConsolidated c s).2.flash = s.flash ∧
      (readConsolidated c s).2.writeAddress = c.logStart ∧
      (readConsolidated c s).2.NoFailure ∧
      ∀ i, i < c.logicalSize → (readConsolidated c s).2.cache i = base c s.flash i := by
  obtain ⟨hram, hflash, hok⟩ :=
    backingStoreReadBulk_spec c (c.logicalSize / c.writeSize) 0 s.cache 0 s
  obtain ⟨hfst, htarget⟩ := hok h
  rw [logicalSize_words] at htarget
  have hno := hram.noFailure h
  have hptr' := hram.writeAddress.trans hptr
  simp only [readConsolidated, hfst, if_true]
  generalize backingStoreReadBulk c 0 s.cache 0 (c.logicalSize / c.writeSize) s = r at *
  have hcache : ∀ i, i < c.logicalSize → r.2.1 i = s.flash i := by
    intro i hi
    rw [htarget, Memory.store_of_mem (Nat.zero_le i) (by rw [Memory.load_length]; omega),
      Memory.load_getElem]
    congr 1
    omega
  obtain ⟨hram', hflash', hok'⟩ := backingStoreReadBulk_spec c (8 / c.writeSize) c.logicalSize
    r.2.2.stack 0 { r.2.2 with cache := r.2.1 }
  obtain ⟨-, htarget'⟩ := hok' hno
  rw [checksum_words] at htarget'
  generalize backingStoreReadBulk c c.logicalSize r.2.2.stack 0 (8 / c.writeSize)
    { r.2.2 with cache := r.2.1 } = r' at *
  have hload : r'.2.1.load 0 8 = s.flash.load c.logicalSize 8 := by
    have hsame := Memory.load_store_same r.2.2.stack 0 (r.2.2.flash.load c.logicalSize 8)
    rw [Memory.load_length] at hsame
    rw [htarget', hsame, hflash]
  rw [hload, checksum_congr hcache]
  split_ifs with hsum
  · refine ⟨rfl, hflash'.trans hflash, hram'.writeAddress.trans hptr', hram'.noFailure hno,
      fun i hi => ?_⟩
    rw [hram'.cache, base, if_pos hsum]
    exact hcache i hi
  · refine ⟨rfl, hflash'.trans hflash, rfl, hram'.noFailure hno, fun i hi => ?_⟩
    rw [base, if_neg hsum]
    exact Memory.fill_of_mem (Nat.zero_le i) (by omega)

/-- The state after a boot without failures: success, the store untouched, the write
pointer at {lit}`a` and {lit}`img` in the cache. -/
structure Booted (c : Config) (flash img : Memory UInt8) (a : ℕ) (r : Status × State) :
    Prop where
  status : r.1 = .success
  flash : r.2.flash = flash
  writeAddress : r.2.writeAddress = a
  cache : ∀ i, i < c.logicalSize → r.2.cache i = img i
  noFailure : r.2.NoFailure

/-- The first half of a boot without failures, up to the log playback. -/
theorem init_eq {c : Config} {s : State} (h : s.NoFailure) :
    ∃ s₁, Playing s.flash s₁.cache c.logStart (playbackStart c s₁) ∧
      (∀ i, i < c.logicalSize → s₁.cache i = base c s.flash i) ∧
      init c s = if (playbackLog c s₁).1 = .failed then
        ((playbackLog c s₁).1, clearCache c (playbackLog c s₁).2) else playbackLog c s₁ := by
  have hclear : (clearCache c s).NoFailure := h
  have hfst : (backingStoreInit (clearCache c s)).1 = true := hclear.ask_fst .init
  obtain ⟨hstatus, hflash, hptr, hno, hcache⟩ := readConsolidated_ok (c := c)
    (s := (backingStoreInit (clearCache c s)).2) (hclear.ask_snd .init) rfl
  refine ⟨(readConsolidated c (backingStoreInit (clearCache c s)).2).2,
    ⟨rfl, rfl, rfl, hflash, rfl, hno⟩, hcache, ?_⟩
  simp only [init, hfst, if_true, hstatus]
  rfl

/-- A boot without failures reads back what the store holds. -/
theorem init_stored {c : Config} {img : Memory UInt8} {a : ℕ} {s : State}
    (h : s.NoFailure) (hs : Stored c s.flash img a) (ha : a < c.backingSize) :
    Booted c s.flash img a (init c s) := by
  obtain ⟨es, hes, himg⟩ := hs.entries
  obtain ⟨s₁, hplaying, hcache, hinit⟩ := init_eq (c := c) h
  have hempty : (entryAt s.flash a).IsEmpty c := by
    intro i hi
    have hword := Config.add_writeSize_le hs.dvd ha
    exact hs.tail (a + i) (by omega) (by omega)
  have hplayed := playbackLoop_entries hes ha hempty hplaying
  have hnot : ¬ c.backingSize ≤ a := by omega
  rw [hinit]
  simp only [playbackLog, hplayed.status, consolidateIfNeeded, hplayed.address, if_neg hnot]
  refine ⟨rfl, hplayed.flash, rfl, fun i hi => ?_, hplayed.noFailure⟩
  show (playbackLoop c (playbackStart c s₁)).state.cache i = img i
  rw [hplayed.cache, himg i hi]
  exact applyAll_congr es (hcache i hi)

/-- The state after a boot that found the log full: the logical data is consolidated. -/
structure BootedFull (c : Config) (img : Memory UInt8) (r : Status × State) : Prop where
  status : r.1 = .consolidated
  flash : ∃ flash, r.2.flash = consolidatedFlash c r.2.cache flash
  writeAddress : r.2.writeAddress = c.logStart
  cache : ∀ i, i < c.logicalSize → r.2.cache i = img i
  noFailure : r.2.NoFailure

/-- A boot that finds the log full consolidates what the store holds. -/
theorem init_full {c : Config} {img : Memory UInt8} {a : ℕ} {s : State}
    (h : s.NoFailure) (hs : Stored c s.flash img a) (ha : c.backingSize ≤ a) :
    BootedFull c img (init c s) := by
  obtain ⟨es, hes, himg⟩ := hs.entries
  obtain ⟨s₁, hplaying, hcache, hinit⟩ := init_eq (c := c) h
  have hplayed := playbackLoop_full hes ha hs.le hplaying
  obtain ⟨hforce, hcase, hok⟩ := consolidateForce_spec c
    { (playbackLoop c (playbackStart c s₁)).state with writeAddress := a }
  obtain ⟨hdone, hno⟩ := hok hplayed.noFailure
  rw [hinit]
  simp only [playbackLog, hplayed.status, consolidateIfNeeded, hplayed.address, if_pos ha]
  simp only [reduceCtorEq, if_false]
  rw [if_neg (by rw [hdone]; simp)]
  obtain ⟨hfail, -⟩ | ⟨hfail, -⟩ | ⟨-, hptr, hflash⟩ := hcase
  · exact absurd (hfail.symm.trans hdone) (by simp)
  · exact absurd (hfail.symm.trans hdone) (by simp)
  · refine ⟨hdone, ⟨_, by rw [hflash, hforce]⟩, hptr, fun i hi => ?_, hno⟩
    rw [hforce]
    show (playbackLoop c (playbackStart c s₁)).state.cache i = img i
    rw [hplayed.cache, himg i hi]
    exact applyAll_congr es (hcache i hi)

/-- A boot without failures reads back what the store holds. -/
theorem init_reads {c : Config} {img : Memory UInt8} {a : ℕ} {s : State}
    (h : s.NoFailure) (hs : Stored c s.flash img a) :
    (init c s).1 ≠ .failed ∧ ∀ i, i < c.logicalSize → (init c s).2.cache i = img i := by
  by_cases ha : a < c.backingSize
  · have hboot := init_stored h hs ha
    exact ⟨by rw [hboot.status]; simp, hboot.cache⟩
  · have hboot := init_full h hs (Nat.le_of_not_lt ha)
    exact ⟨by rw [hboot.status]; simp, hboot.cache⟩

end WearLeveling
end VialQmk
