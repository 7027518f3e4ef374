import VialQmk.WearLeveling.Persistence

/-!
# Wear leveling - boot on any store

The log playback always ends and stores only inside the cache, whatever the store
holds.  Its reads stay inside the store, and its copies inside the entry, exactly
when the log has no multibyte entry that runs over the end of the store or claims
more than five bytes of data.

Main results:

- Definition {lit}`Boundary`: the addresses where the playback expects an entry.
- Definition {lit}`LogFits`: the condition on the contents of the store.
- Theorem {lit}`bootPlayback_inCache`: on every store the playback ends and stores only
  inside the cache.
- Theorem {lit}`bootSafe_iff`: the playback is safe for every state of memory and every
  pattern of failures exactly when the log fits.
-/

namespace VialQmk
namespace WearLeveling

/-- What is asked of an event of the log playback. -/
def Event.InBounds (c : Config) : Event → Prop
  | .read address _ => address < c.backingSize
  | .memcpy dst src length => src + length ≤ 8 ∧ dst + length ≤ c.logicalSize
  | .assign index => index < c.logicalSize
  | _ => True

instance (c : Config) : (e : Event) → Decidable (e.InBounds c)
  | .read _ _ => inferInstanceAs (Decidable (_ < _))
  | .memcpy _ _ _ => inferInstanceAs (Decidable (_ ∧ _))
  | .assign _ => inferInstanceAs (Decidable (_ < _))
  | .init _ | .unlock _ | .lock _ | .erase _ | .write _ _ _ => inferInstanceAs (Decidable True)

/-- The addresses where the playback expects an entry when no read fails. -/
inductive Boundary (c : Config) (flash : Memory UInt8) : ℕ → Prop
  | logStart : Boundary c flash c.logStart
  | next {a : ℕ} {e : Entry} (h : Boundary c flash a) (hlt : a < c.backingSize)
    (hempty : ¬ (entryAt flash a).IsEmpty c) (hdec : (entryAt flash a).decode c = some e)
    (hrange : e.InRange c) : Boundary c flash (a + e.size)

/-- Every multibyte entry of the log has its header inside the store and, unless its
address is out of range, at most five bytes of data that are inside the store too. -/
def LogFits (c : Config) (flash : Memory UInt8) : Prop :=
  ∀ a, Boundary c flash a → a < c.backingSize → ¬ (entryAt flash a).IsEmpty c →
    (entryAt flash a).getType = .multibyte →
    a + c.headerSize ≤ c.backingSize ∧
    ((entryAt flash a).multibyteGetAddress + (entryAt flash a).multibyteGetLength ≤
        c.logicalSize →
      (entryAt flash a).multibyteGetLength ≤ LogEntry.multibyteMaxBytes ∧
      a + c.multibyteSize (entryAt flash a).multibyteGetLength ≤ c.backingSize)

/-- The log playback inside {lit}`wear_leveling_init`, with its own events as the trace. -/
def bootPlayback (c : Config) (s : State) : Playback :=
  playbackLoop c (playbackStart c
    { (readConsolidated c (backingStoreInit (clearCache c s)).2).2 with trace := [] })

/-- The log playback at boot ends, and all it does stays in bounds. -/
def BootSafe (c : Config) (s : State) : Prop :=
  playbackCond c (bootPlayback c s) = false ∧
    ∀ e ∈ (bootPlayback c s).state.trace, e.InBounds c

theorem Boundary.dvd {c : Config} {flash : Memory UInt8} {a : ℕ} (h : Boundary c flash a) :
    c.writeSize ∣ a := by
  induction h with
  | logStart => exact c.writeSize_dvd_logStart
  | next _ _ _ hdec _ ih => exact Nat.dvd_add ih (LogEntry.size_words hdec).1

/-- Reading the consolidated data leaves the store alone. -/
theorem readConsolidated_flash (c : Config) (s : State) :
    (readConsolidated c s).2.flash = s.flash := by
  obtain ⟨-, hflash, -⟩ :=
    backingStoreReadBulk_spec c (c.logicalSize / c.writeSize) 0 s.cache 0 s
  simp only [readConsolidated]
  generalize backingStoreReadBulk c 0 s.cache 0 (c.logicalSize / c.writeSize) s = r at *
  obtain ⟨-, hflash', -⟩ := backingStoreReadBulk_spec c (8 / c.writeSize) c.logicalSize
    r.2.2.stack 0 { r.2.2 with cache := r.2.1 }
  split_ifs
  · exact hflash'.trans hflash
  · exact hflash'.trans hflash
  · exact hflash

/-! ## What the playback does -/

/-- The playback goes on at {lit}`a`, and all its events so far are {lit}`ok`. -/
structure Bounded (ok : Event → Prop) (flash : Memory UInt8) (a : ℕ) (p : Playback) : Prop where
  flash : p.state.flash = flash
  address : p.address = a
  trace : ∀ e ∈ p.state.trace, ok e

/-- All events were {lit}`ok`, and the playback stopped or stands in front of an entry. -/
structure BoundedAtEntry (c : Config) (ok : Event → Prop) (flash : Memory UInt8)
    (p : Playback) : Prop where
  bounded : Bounded ok flash p.address p
  boundary : p.cancelPlayback = true ∨ Boundary c flash p.address

/-- The events of a round in front of an entry are {lit}`ok`. -/
structure RoundsOk (c : Config) (flash : Memory UInt8) (ok : Event → Prop) : Prop where
  read : ∀ {a n : ℕ} {b : Bool}, Boundary c flash a → a < c.backingSize →
    Wanted c flash a n → ok (.read (a + n) b)
  memcpy : ∀ {a : ℕ}, Boundary c flash a → a < c.backingSize →
    ¬ (entryAt flash a).IsEmpty c → (entryAt flash a).getType = .multibyte →
    (entryAt flash a).multibyteGetAddress + (entryAt flash a).multibyteGetLength ≤
      c.logicalSize →
    ok (.memcpy (entryAt flash a).multibyteGetAddress 3 (entryAt flash a).multibyteGetLength)
  assign : ∀ {i : ℕ}, i < c.logicalSize → ok (.assign i)

theorem Bounded.record {ok : Event → Prop} {flash : Memory UInt8} {a : ℕ} {p : Playback}
    {s : State} {e : Event} (h : Bounded ok flash a p) (hflash : s.flash = p.state.flash)
    (htrace : s.trace = e :: p.state.trace) (he : ok e) :
    Bounded ok flash a { p with state := s } := by
  refine ⟨hflash.trans h.flash, h.address, fun e' he' => ?_⟩
  simp only [htrace, List.mem_cons] at he'
  rcases he' with rfl | he'
  · exact he
  · exact h.trace e' he'

/-- A round in front of an entry stays in bounds, and stops the playback or moves on to
the next entry. -/
theorem RoundsOk.round {c : Config} {flash : Memory UInt8} {ok : Event → Prop} {p : Playback}
    (h : RoundsOk c flash ok) (hp : BoundedAtEntry c ok flash p)
    (hcond : playbackCond c p = true) :
    BoundedAtEntry c ok flash (playbackBody c p) ∧
      ((playbackBody c p).cancelPlayback = true ∨ p.address < (playbackBody c p).address) := by
  obtain ⟨hcancel, hlt⟩ : p.cancelPlayback = false ∧ p.address < c.backingSize := by
    simpa [playbackCond] using hcond
  have hbound : Boundary c flash p.address := by
    rcases hp.boundary with hstop | hbound
    · exact absurd hstop (by simp [hcancel])
    · exact hbound
  generalize ha : p.address = a at *
  have hstop : ∀ {q : Playback} {a' : ℕ}, Bounded ok flash a' q → q.cancelPlayback = true →
      BoundedAtEntry c ok flash q ∧ (q.cancelPlayback = true ∨ a < q.address) :=
    fun hq hcancel => ⟨⟨⟨hq.flash, rfl, hq.trace⟩, Or.inl hcancel⟩, Or.inl hcancel⟩
  have hmove : ∀ {q : Playback} {e : Entry}, ¬ (entryAt flash a).IsEmpty c →
      (entryAt flash a).decode c = some e → e.InRange c → Bounded ok flash (a + e.size) q →
      BoundedAtEntry c ok flash q ∧ (q.cancelPlayback = true ∨ a < q.address) := by
    intro q e hempty hdec hrange hq
    have hsize := (LogEntry.size_words hdec).2
    refine ⟨⟨⟨hq.flash, rfl, hq.trace⟩, Or.inr ?_⟩, Or.inr ?_⟩
    · rw [hq.address]
      exact hbound.next hlt hempty hdec hrange
    · rw [hq.address]
      omega
  have hread : ∀ {n : ℕ} {q : Playback}, Bounded ok flash (a + n) q → Wanted c flash a n →
      Bounded ok flash (a + n) { q with state := (q.state.ask (.read q.address)).2 } :=
    fun hq hn => hq.record rfl rfl (hq.address ▸ h.read hbound hlt hn)
  refine RoundRule.playbackBody flash a (fun n q => Bounded ok flash (a + n) q)
    (fun q => BoundedAtEntry c ok flash q ∧ (q.cancelPlayback = true ∨ a < q.address))
    { place := fun hq => ⟨hq.flash, hq.address⟩
      next := ?_
      fail := fun {n q} hq hn _ => hstop (q := Playback.fail { q with
        state := (q.state.ask (.read q.address)).2 })
        ⟨(hread hq hn).flash, (hread hq hn).address, (hread hq hn).trace⟩ rfl
      empty := ?_
      reject := fun {n q} hq _ _ _ => hstop (q := q.fail) ⟨hq.flash, hq.address, hq.trace⟩ rfl
      copy := ?_
      optimized64 := ?_
      word01 := ?_ } ⟨hp.bounded.flash, ha, hp.bounded.trace⟩
  · intro n q hq hn _
    have hrec := hread hq hn
    exact ⟨hrec.flash, by rw [← Nat.add_assoc, ← hq.address], hrec.trace⟩
  · intro q hq _ _
    have hrec := hread hq (Or.inl rfl)
    exact hstop ⟨hrec.flash, hrec.address, hrec.trace⟩ rfl
  · intro log q hacc htype _ hq
    obtain ⟨hempty, e, hdec, hrange⟩ := hacc
    have he := hdec
    simp only [LogEntry.decode, htype, Option.some.injEq] at he
    subst he
    have hin : (entryAt flash a).multibyteGetAddress + (entryAt flash a).multibyteGetLength ≤
        c.logicalSize := by simpa [Entry.InRange] using hrange
    exact hmove hempty hdec hrange
      (hq.record rfl rfl (h.memcpy hbound hlt hempty htype hin))
  · intro q hacc htype h2 hq
    obtain ⟨hempty, e, hdec, hrange⟩ := hacc
    have he := hdec
    simp only [LogEntry.decode, htype, if_pos h2, Option.some.injEq] at he
    subst he
    rw [h2] at hq
    simp only [Entry.InRange, List.length_singleton] at hrange
    exact hmove hempty hdec hrange (hq.record rfl rfl (h.assign (by omega)))
  · intro q hacc htype h2 hq
    obtain ⟨hempty, e, hdec, hrange⟩ := hacc
    have he := hdec
    simp only [LogEntry.decode, htype, if_pos h2, Option.some.injEq] at he
    subst he
    rw [h2] at hq
    simp only [Entry.InRange, List.length_cons, List.length_nil] at hrange
    have hrec := hq.record (s := q.state.setCache (entryAt flash a).word01GetAddress
      (entryAt flash a).word01GetValue) rfl rfl (h.assign (by omega))
    exact hmove hempty hdec hrange (hrec.record rfl rfl (h.assign (by omega)))

/-- The rounds that are left at most: the store shrinks in front of the playback. -/
def roundsLeft (c : Config) (p : Playback) : ℕ :=
  if p.cancelPlayback then 0 else c.backingSize - p.address

/-- The loop ends, and all its events are {lit}`ok`. -/
theorem RoundsOk.loop {c : Config} {flash : Memory UInt8} {ok : Event → Prop} {s : State}
    (h : RoundsOk c flash ok) (hs : s.flash = flash) (htrace : s.trace = []) :
    playbackCond c (playbackLoop c (playbackStart c s)) = false ∧
      ∀ e ∈ (playbackLoop c (playbackStart c s)).state.trace, ok e := by
  have hstart : BoundedAtEntry c ok flash (playbackStart c s) :=
    ⟨⟨hs, rfl, by simp [playbackStart, htrace]⟩, Or.inr Boundary.logStart⟩
  refine ⟨BoundedLoop.run_done (BoundedAtEntry c ok flash) (roundsLeft c)
    (fun p hp hcond => ?_) hstart (Nat.sub_le _ _), ?_⟩
  · obtain ⟨hnext, hmove⟩ := h.round hp hcond
    refine ⟨hnext, ?_⟩
    obtain ⟨hcancel, hlt⟩ : p.cancelPlayback = false ∧ p.address < c.backingSize := by
      simpa [playbackCond] using hcond
    simp only [roundsLeft, hcancel, Bool.false_eq_true, if_false]
    split_ifs with hstop
    · omega
    · rcases hmove with hstop' | hmove
      · exact absurd hstop' hstop
      · omega
  · have hend : BoundedAtEntry c ok flash (playbackLoop c (playbackStart c s)) :=
      BoundedLoop.run_invariant (BoundedAtEntry c ok flash) (fun p hp hcond => (h.round hp hcond).1)
        c.backingSize hstart
    exact hend.bounded.trace

/-- The stores of an event into the cache stay inside the logical data. -/
def Event.InCache (c : Config) : Event → Prop
  | .memcpy dst _ length => dst + length ≤ c.logicalSize
  | .assign index => index < c.logicalSize
  | _ => True

/-- On every store the log playback ends, and stores only inside the cache. -/
theorem bootPlayback_inCache (c : Config) (s : State) :
    playbackCond c (bootPlayback c s) = false ∧
      ∀ e ∈ (bootPlayback c s).state.trace, e.InCache c :=
  have h : RoundsOk c s.flash (Event.InCache c) :=
    ⟨fun _ _ _ => trivial, fun _ _ _ _ hin => hin, fun hi => hi⟩
  h.loop (readConsolidated_flash c _) rfl

/-- With a log that fits all events are in bounds. -/
theorem LogFits.roundsOk {c : Config} {flash : Memory UInt8} (h : LogFits c flash) :
    RoundsOk c flash (Event.InBounds c) where
  read := by
    rintro a n b ha hlt (rfl | ⟨htype, hempty, hn | ⟨hacc, hn⟩⟩)
    · exact hlt
    · have := (h a ha hlt hempty htype).1
      simp only [Event.InBounds]
      omega
    · have := ((h a ha hlt hempty htype).2 ((accepted_multibyte hempty htype).mp hacc)).2
      simp only [Event.InBounds]
      omega
  memcpy := by
    intro a ha hlt hempty htype hin
    have hshort := ((h a ha hlt hempty htype).2 hin).1
    rw [LogEntry.multibyteMaxBytes] at hshort
    exact ⟨by omega, hin⟩
  assign := fun hi => hi

/-! ## A log that does not fit -/

/-- The events of a round stay in the trace. -/
theorem playbackBody_trace {c : Config} {p : Playback} {e : Event} (he : e ∈ p.state.trace) :
    e ∈ (playbackBody c p).state.trace := by
  refine RoundRule.playbackBody p.state.flash p.address
    (fun n q => q.state.flash = p.state.flash ∧ q.address = p.address + n ∧ e ∈ q.state.trace)
    (fun q => e ∈ q.state.trace)
    { place := fun hq => ⟨hq.1, hq.2.1⟩
      next := fun hq _ _ => ⟨hq.1, by rw [hq.2.1, Nat.add_assoc], List.mem_cons_of_mem _ hq.2.2⟩
      fail := fun hq _ _ => List.mem_cons_of_mem _ hq.2.2
      empty := fun hq _ _ => List.mem_cons_of_mem _ hq.2.2
      reject := fun hq _ _ _ => hq.2.2
      copy := fun _ _ _ hq => List.mem_cons_of_mem _ hq.2.2
      optimized64 := fun _ _ _ hq => List.mem_cons_of_mem _ hq.2.2
      word01 := fun _ _ _ hq => List.mem_cons_of_mem _ (List.mem_cons_of_mem _ hq.2.2) }
    ⟨rfl, rfl, he⟩

/-- A round without failures passes an accepted entry, whatever its length. -/
theorem playbackBody_passes {c : Config} {flash cache : Memory UInt8} {a : ℕ} {e : Entry}
    {p : Playback} (hempty : ¬ (entryAt flash a).IsEmpty c)
    (hdec : (entryAt flash a).decode c = some e) (hrange : e.InRange c)
    (hp : Playing flash cache a p) :
    ∃ cache', Playing flash cache' (a + e.size) (playbackBody c p) := by
  refine RoundRule.playbackBody flash a (fun n q => Playing flash cache (a + n) q)
    (fun q => ∃ cache', Playing flash cache' (a + e.size) q)
    { place := fun hq => ⟨hq.flash, hq.address⟩
      next := fun hq _ _ => Nat.add_assoc _ _ _ ▸ hq.next c.writeSize
      fail := fun {n q} hq _ hask =>
        absurd (hq.noFailure.ask_fst (.read q.address)) (by simp [hask])
      empty := fun _ _ hnone => absurd hnone hempty
      reject := fun _ _ _ hacc => absurd ⟨hempty, e, hdec, hrange⟩ hacc
      copy := ?_
      optimized64 := ?_
      word01 := ?_ } hp
  · intro log q _ htype _ hq
    simp only [LogEntry.decode, htype, Option.some.injEq] at hdec
    subst hdec
    exact ⟨_, hq.record rfl rfl id⟩
  · intro q _ htype h2 hq
    simp only [LogEntry.decode, htype, if_pos h2, Option.some.injEq] at hdec
    subst hdec
    rw [h2] at hq
    exact ⟨_, hq.record rfl rfl id⟩
  · intro q _ htype h2 hq
    simp only [LogEntry.decode, htype, if_pos h2, Option.some.injEq] at hdec
    subst hdec
    rw [h2] at hq
    exact ⟨_, hq.record rfl rfl id⟩

/-- Without failures the playback comes to every address where it expects an entry. -/
theorem Boundary.reached {c : Config} {flash : Memory UInt8} {a : ℕ} (h : Boundary c flash a)
    {p : Playback} {cache : Memory UInt8} (hp : Playing flash cache c.logStart p) :
    ∃ n cache', n + c.logStart ≤ a ∧
      Playing flash cache' a (BoundedLoop.run (playbackCond c) (playbackBody c) n p) := by
  induction h with
  | logStart => exact ⟨0, cache, by omega, hp⟩
  | @next a e _ hlt hempty hdec hrange ih =>
    obtain ⟨n, cache', hn, hplay⟩ := ih
    obtain ⟨cache'', hnext⟩ := playbackBody_passes hempty hdec hrange hplay
    have hcond : playbackCond c
        (BoundedLoop.run (playbackCond c) (playbackBody c) n p) = true := by
      simp [playbackCond, hplay.cancel, hplay.address, hlt]
    have hsize := (LogEntry.size_words hdec).2
    refine ⟨n + 1, cache'', by omega, ?_⟩
    rwa [BoundedLoop.run_add, BoundedLoop.run_succ_of_true hcond, BoundedLoop.run_zero]

/-- The first {lit}`n` bytes of the entry at {lit}`a` were read. -/
def ReadUpTo (c : Config) (a n : ℕ) (trace : List Event) : Prop :=
  ∀ m, m < n → c.writeSize ∣ m → Event.read (a + m) true ∈ trace

theorem ReadUpTo.next {c : Config} {a n : ℕ} {trace : List Event} (h : ReadUpTo c a n trace)
    (hn : c.writeSize ∣ n) : ReadUpTo c a (n + c.writeSize) (.read (a + n) true :: trace) := by
  intro m hm hdvd
  by_cases hlt : m < n
  · exact List.mem_cons_of_mem _ (h m hlt hdvd)
  · have heq : m = n := by
      obtain ⟨i, rfl⟩ := hdvd
      obtain ⟨j, rfl⟩ := hn
      have hij : i < j + 1 := Nat.lt_of_mul_lt_mul_left (a := c.writeSize)
        (by rw [Nat.mul_succ]; exact hm)
      have hji : j ≤ i := Nat.le_of_mul_le_mul_left (by omega) c.writeSize_pos
      rw [Nat.le_antisymm (by omega) hji]
    rw [heq]
    exact List.mem_cons_self

/-- What a round without failures does for a multibyte entry: it reads the header and,
if the address is in range, the whole entry, and copies its data. -/
theorem playbackBody_multibyte {c : Config} {flash cache : Memory UInt8} {a : ℕ}
    {p : Playback} (hempty : ¬ (entryAt flash a).IsEmpty c)
    (htype : (entryAt flash a).getType = .multibyte) (hp : Playing flash cache a p) :
    ReadUpTo c a c.headerSize (playbackBody c p).state.trace ∧
      (Accepted c flash a →
        ReadUpTo c a (c.multibyteSize (entryAt flash a).multibyteGetLength)
            (playbackBody c p).state.trace ∧
          Event.memcpy (entryAt flash a).multibyteGetAddress 3
            (entryAt flash a).multibyteGetLength ∈ (playbackBody c p).state.trace) := by
  have hheader : c.headerSize ≤ c.multibyteSize (entryAt flash a).multibyteGetLength := by
    rcases c.writeSize_eq with hW | hW | hW <;>
      simp only [Config.headerSize, Config.multibyteSize, hW] <;> split_ifs <;> omega
  refine RoundRule.playbackBody flash a
    (fun n q => Playing flash cache (a + n) q ∧ c.writeSize ∣ n ∧ ReadUpTo c a n q.state.trace)
    (fun q => ReadUpTo c a c.headerSize q.state.trace ∧ (Accepted c flash a →
      ReadUpTo c a (c.multibyteSize (entryAt flash a).multibyteGetLength) q.state.trace ∧
        Event.memcpy (entryAt flash a).multibyteGetAddress 3
          (entryAt flash a).multibyteGetLength ∈ q.state.trace))
    { place := fun hq => ⟨hq.1.flash, hq.1.address⟩
      next := ?_
      fail := fun {n q} hq _ hask =>
        absurd (hq.1.noFailure.ask_fst (.read q.address)) (by simp [hask])
      empty := fun _ _ hnone => absurd hnone hempty
      reject := ?_
      copy := ?_
      optimized64 := fun _ h => by simp [htype] at h
      word01 := fun _ h => by simp [htype] at h } ⟨hp, Nat.dvd_zero _, fun m hm => ?_⟩
  · intro n q hq _ hask
    refine ⟨Nat.add_assoc _ _ _ ▸ hq.1.next c.writeSize, Nat.dvd_add hq.2.1 (Nat.dvd_refl _), ?_⟩
    have hnext := hq.2.2.next hq.2.1
    rw [← hq.1.address, ← hask] at hnext
    exact hnext
  · intro n q hq hn _ hacc
    rw [hn htype] at hq
    exact ⟨hq.2.2, fun h => absurd h hacc⟩
  · intro log q hacc _ _ hq
    refine ⟨fun m hm hdvd => List.mem_cons_of_mem _ (hq.2.2 m (by omega) hdvd), fun _ =>
      ⟨fun m hm hdvd => List.mem_cons_of_mem _ (hq.2.2 m hm hdvd), List.mem_cons_self⟩⟩
  · exact absurd hm (Nat.not_lt_zero m)

/-- A read of the last word of a block inside the store: the block is inside the store. -/
theorem ReadUpTo.le {c : Config} {a n : ℕ} {trace : List Event} (h : ReadUpTo c a n trace)
    (ha : c.writeSize ∣ a) (hn : c.writeSize ∣ n) (hpos : 0 < n)
    (htrace : ∀ e ∈ trace, e.InBounds c) : a + n ≤ c.backingSize := by
  have hle : c.writeSize ≤ n := Nat.le_of_dvd hpos hn
  have hlast := htrace _ (h (n - c.writeSize) (by have := c.writeSize_pos; omega)
    (Nat.dvd_sub hn (Nat.dvd_refl _)))
  have hword := Config.add_writeSize_le
    (Nat.dvd_add ha (Nat.dvd_sub hn (Nat.dvd_refl c.writeSize))) hlast
  omega

/-- The log playback of a boot is safe for every state of memory and every pattern of
failures exactly when the log in the store fits. -/
theorem bootSafe_iff (c : Config) (flash : Memory UInt8) :
    (∀ s : State, s.flash = flash → BootSafe c s) ↔ LogFits c flash := by
  constructor
  · intro h a ha hlt hempty htype
    obtain ⟨-, htrace⟩ := h { blankState with flash := flash } rfl
    obtain ⟨s₁, hs₁, hbound⟩ : ∃ s₁ : State, (s₁.flash = flash ∧ s₁.NoFailure) ∧
        ∀ e ∈ (playbackLoop c (playbackStart c s₁)).state.trace, e.InBounds c := by
      refine ⟨_, ⟨readConsolidated_flash c _, ?_⟩, htrace⟩
      exact (readConsolidated_ok (fun _ => rfl) rfl).2.2.2.1
    obtain ⟨n, cache, hn, hplay⟩ := ha.reached (p := playbackStart c s₁)
      ⟨rfl, rfl, rfl, hs₁.1, rfl, hs₁.2⟩
    have hcond : playbackCond c (BoundedLoop.run (playbackCond c) (playbackBody c) n
        (playbackStart c s₁)) = true := by
      simp [playbackCond, hplay.cancel, hplay.address, hlt]
    have hloop : playbackLoop c (playbackStart c s₁) =
        BoundedLoop.run (playbackCond c) (playbackBody c) (c.backingSize - (n + 1))
          (playbackBody c (BoundedLoop.run (playbackCond c) (playbackBody c) n
            (playbackStart c s₁))) := by
      have hrounds : c.backingSize = n + (1 + (c.backingSize - (n + 1))) := by
        have hstart : 8 ≤ c.logStart := Nat.le_add_left 8 c.logicalSize
        omega
      rw [playbackLoop]
      conv_lhs => rw [hrounds]
      rw [BoundedLoop.run_add, BoundedLoop.run_add, BoundedLoop.run_succ_of_true hcond,
        BoundedLoop.run_zero]
    have hround : ∀ e ∈ (playbackBody c (BoundedLoop.run (playbackCond c) (playbackBody c) n
        (playbackStart c s₁))).state.trace, e.InBounds c := by
      intro e he
      refine hbound e ?_
      rw [hloop]
      exact BoundedLoop.run_invariant (fun p : Playback => e ∈ p.state.trace)
        (fun _ he _ => playbackBody_trace he) _ he
    obtain ⟨hheader, hentry⟩ := playbackBody_multibyte hempty htype hplay
    have hdvd : c.writeSize ∣ c.headerSize := by
      rcases c.writeSize_eq with hW | hW | hW <;> simp [Config.headerSize, hW]
    refine ⟨hheader.le ha.dvd hdvd (by have := c.three_le_headerSize; omega) hround,
      fun hrange => ?_⟩
    obtain ⟨hread, hcopy⟩ := hentry ((accepted_multibyte hempty htype).mpr hrange)
    obtain ⟨hwords, hpos⟩ := c.multibyteSize_words (entryAt flash a).multibyteGetLength
    refine ⟨?_, hread.le ha.dvd hwords hpos hround⟩
    have hsrc := (hround _ hcopy).1
    rw [LogEntry.multibyteMaxBytes]
    omega
  · intro h s hs
    exact h.roundsOk.loop ((readConsolidated_flash c _).trans hs) rfl

/-- A log of one-word entries up to the last word of the small store, which holds the
first word of a multibyte entry. -/
def fullLog : Memory UInt8 :=
  fun i => if i < 24 ∨ 46 < i then 0 else if i = 46 then 8 else if i % 2 = 0 then 64 else 1

/-- The playback reads the second word of the last entry behind the end of the store. -/
theorem not_bootSafe_fullLog : ¬ BootSafe smallConfig { blankState with flash := fullLog } :=
  fun h => absurd h.2 (by decide +kernel)

end WearLeveling
end VialQmk
