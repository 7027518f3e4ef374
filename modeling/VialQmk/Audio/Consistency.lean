import VialQmk.Audio.Tones
import Mathlib.Data.List.InsertIdx

/-!
# Audio - the stack stays consistent

The active tones are the most recently started ones that were not stopped, each pitch once,
in the order in which they were started last.  A stack is kept by every call.  What fails is
the end of a melody after its tones were stopped, where {lit}`audio_stop_all` does nothing, and
tone multiplexing that was turned off, where {lit}`audio_update_state` divides by zero.

Main results:

- Definition {lit}`Consistent`: what holds of the tones, and of the melody.
- Definition {lit}`Inv`: the invariant of the calls.
- Theorem {lit}`consistent_iff`: exactly those runs stay consistent that meet the condition.
-/

namespace VialQmk
namespace Audio

open Function (update update_self update_of_ne)
open StateMachine

variable {α : Type*} {b : Build α}

/-! ## Loops -/

theorem moveDown_apply (tone : Tone α) (n j : ℕ) (tones : ℕ → Tone α) (k : ℕ) :
    moveDown tone n j tones k =
      if j ≤ k ∧ k < j + n then tones (k + 1)
      else if k = j + n ∧ 0 < n then tone
      else tones k := by
  induction n generalizing j tones with
  | zero =>
    rw [if_neg (by omega), if_neg (by omega)]
    rfl
  | succ n ih =>
    unfold moveDown
    rw [ih]
    by_cases hbefore : k < j
    · rw [if_neg (by omega), if_neg (by omega), if_neg (by omega), if_neg (by omega),
        update_of_ne (by omega), update_of_ne (by omega)]
    by_cases hfirst : k = j
    · subst hfirst
      rw [if_neg (by omega), if_neg (by omega), if_pos (by omega), update_of_ne (by omega),
        update_self]
    by_cases hinside : k < j + (n + 1)
    · rw [if_pos (by omega), if_pos (by omega), update_of_ne (by omega), update_of_ne (by omega)]
    by_cases hlast : k = j + (n + 1)
    · subst hlast
      rcases Nat.eq_zero_or_pos n with rfl | hpos
      · rw [if_neg (by omega), if_neg (by omega), if_neg (by omega), if_pos (by omega), update_self]
      · rw [if_neg (by omega), if_pos (by omega), if_neg (by omega), if_pos (by omega)]
    · rw [if_neg (by omega), if_neg (by omega), if_neg (by omega), if_neg (by omega),
        update_of_ne (by omega), update_of_ne (by omega)]

theorem shiftOut_apply (n i : ℕ) (tones : ℕ → Tone α) (k : ℕ) :
    shiftOut n i tones k = if i ≤ k ∧ k < i + n then tones (k + 1) else tones k := by
  induction n generalizing i tones with
  | zero =>
    rw [if_neg (by omega)]
    rfl
  | succ n ih =>
    unfold shiftOut
    rw [ih]
    by_cases hfirst : k = i
    · subst hfirst
      rw [if_neg (by omega), if_pos (by omega), update_self]
    by_cases hinside : i ≤ k ∧ k < i + (n + 1)
    · rw [if_pos (by omega), if_pos (by omega), update_of_ne (by omega)]
    · rw [if_neg (by omega), if_neg (by omega), update_of_ne (by omega)]

/-! ## Tones on the stack -/

/-- The stack holds the tones {lit}`ts`, and nothing behind them. -/
structure Holds (b : Build α) (tones : ℕ → Tone α) (ts : List (Tone α)) : Prop where
  length_le : ts.length ≤ b.stackSize
  get : ∀ i < b.stackSize, tones i = ts[i]?.getD Tone.empty

/-- A tone is taken out. -/
theorem Holds.remove {tones : ℕ → Tone α} {ts : List (Tone α)} (h : Holds b tones ts) {i : ℕ}
    (hi : i < b.stackSize) :
    Holds b (moveDown Tone.empty (b.stackSize - 1 - i) i (update tones i Tone.empty))
      (ts.eraseIdx i) := by
  refine ⟨Nat.le_trans (List.length_eraseIdx_le ts i) h.length_le, fun k hk => ?_⟩
  rw [moveDown_apply, List.getElem?_eraseIdx]
  by_cases hbefore : k < i
  · rw [if_neg (by omega), if_neg (by omega), if_pos hbefore, update_of_ne (by omega), h.get k hk]
  rw [if_neg hbefore]
  by_cases hlast : k = b.stackSize - 1
  · -- the last entry is empty
    have hnone : ts[k + 1]? = none := List.getElem?_eq_none (by have := h.length_le; omega)
    rw [if_neg (by omega), hnone]
    split_ifs with hmoved
    · rfl
    · obtain rfl : k = i := by omega
      rw [update_self]
      rfl
  · rw [if_pos (by omega), update_of_ne (by omega), h.get (k + 1) (by omega)]

/-- A tone below the last one moves behind it. -/
theorem Holds.moveToEnd {tones : ℕ → Tone α} {ts : List (Tone α)} (h : Holds b tones ts) {i : ℕ}
    (hi : i + 1 < ts.length) (tone : Tone α) :
    Holds b (moveDown tone (ts.length - 1 - i) i tones) (ts.eraseIdx i ++ [tone]) := by
  have hlen : (ts.eraseIdx i).length = ts.length - 1 := List.length_eraseIdx_of_lt (by omega)
  have hle := h.length_le
  refine ⟨?_, fun k hk => ?_⟩
  · rw [List.length_append, List.length_singleton, hlen]
    omega
  rw [moveDown_apply]
  by_cases hend : k < ts.length - 1
  · rw [List.getElem?_append_left (by omega), List.getElem?_eraseIdx]
    by_cases hbefore : k < i
    · rw [if_neg (by omega), if_neg (by omega), if_pos hbefore, h.get k hk]
    · rw [if_pos (by omega), if_neg hbefore, h.get (k + 1) (by omega)]
  rw [if_neg (by omega), List.getElem?_append_right (by omega), hlen]
  by_cases hlast : k = ts.length - 1
  · rw [if_pos (by omega), hlast, Nat.sub_self]
    rfl
  · have hnone : ([tone] : List (Tone α))[k - (ts.length - 1)]? = none :=
      List.getElem?_eq_none (by rw [List.length_singleton]; omega)
    rw [if_neg (by omega), hnone, h.get k hk, List.getElem?_eq_none (by omega)]

/-- A tone is put behind the others. -/
theorem Holds.push {tones : ℕ → Tone α} {ts : List (Tone α)} (h : Holds b tones ts)
    (hlen : ts.length < b.stackSize) (tone : Tone α) :
    Holds b (update tones ts.length tone) (ts ++ [tone]) := by
  refine ⟨by rw [List.length_append, List.length_singleton]; omega, fun k hk => ?_⟩
  by_cases hlast : k = ts.length
  · subst hlast
    rw [update_self, List.getElem?_append_right (Nat.le_refl _), Nat.sub_self]
    rfl
  rw [update_of_ne hlast, h.get k hk]
  by_cases hbefore : k < ts.length
  · rw [List.getElem?_append_left hbefore]
  · rw [List.getElem?_eq_none (by omega),
      List.getElem?_eq_none (by rw [List.length_append, List.length_singleton]; omega)]

/-- The oldest tone makes room for one. -/
theorem Holds.pushOut {tones : ℕ → Tone α} {ts : List (Tone α)} (h : Holds b tones ts)
    (hlen : ts.length = b.stackSize) (tone : Tone α) :
    Holds b (update (shiftOut (b.stackSize - 1) 0 tones) (b.stackSize - 1) tone)
      (ts.tail ++ [tone]) := by
  have hpos := b.stack_pos
  have htail : ts.tail.length = b.stackSize - 1 := by rw [List.length_tail, hlen]
  refine ⟨by rw [List.length_append, List.length_singleton]; omega, fun k hk => ?_⟩
  by_cases hlast : k = b.stackSize - 1
  · subst hlast
    rw [update_self, List.getElem?_append_right (by omega), htail, Nat.sub_self]
    rfl
  · rw [update_of_ne hlast, shiftOut_apply, if_pos (by omega), h.get (k + 1) (by omega),
      List.getElem?_append_left (by omega), List.getElem?_tail]

variable {s : State α}

/-! ## What the calls leave alone -/

/-- The variables of the melody, of the tempo and of multiplexing. -/
structure SameMelody (s s' : State α) : Prop where
  playingMelody : s'.playingMelody = s.playingMelody
  currentNote : s'.currentNote = s.currentNote
  melody : s'.melody = s.melody
  tempo : s'.tempo = s.tempo
  rate : s'.rate = s.rate

theorem SameMelody.refl (s : State α) : SameMelody s s :=
  ⟨rfl, rfl, rfl, rfl, rfl⟩

theorem tempo_audioStopAll (s : State α) : (audioStopAll b s).tempo = s.tempo := by
  unfold audioStopAll
  split_ifs <;> rfl

/-- A driver that runs is stopped with its melody. -/
theorem playingMelody_audioStopAll (hruns : s.driverStopped = false) :
    (audioStopAll b s).playingMelody = false := by
  unfold audioStopAll
  rw [if_neg (by rw [hruns]; exact Bool.false_ne_true)]

theorem audioDurationToMs_some (htempo : 10 ≤ s.tempo.toNat) (duration : UInt16) :
    ∃ ms, audioDurationToMs s.tempo duration = some ms :=
  ⟨_, if_neg (by omega)⟩

/-- Notes are skipped up to the last one. -/
theorem skipMissed_some {tempo : UInt8} (htempo : 10 ≤ tempo.toNat) (notes : ℕ → α × UInt16)
    (n : ℕ) (delta duration : UInt16) (current : ℕ) :
    ∃ delta' duration' current',
      skipMissed tempo notes n delta duration current = some (delta', duration', current') ∧
        current' ≤ current + n := by
  induction n generalizing delta duration current with
  | zero => exact ⟨delta, duration, current, rfl, Nat.le_refl _⟩
  | succ n ih =>
    unfold skipMissed
    by_cases hmissed : delta > duration
    · have hnext : audioDurationToMs tempo (notes (current + 1)).2 = some _ :=
        if_neg (by omega)
      rw [if_pos hmissed, hnext]
      obtain ⟨delta', duration', current', hskip, hle⟩ := ih (delta - duration) _ (current + 1)
      exact ⟨delta', duration', current', hskip, by omega⟩
    · rw [if_neg hmissed]
      exact ⟨delta, duration, current, rfl, by omega⟩

/-! ## Tempo -/

theorem tempo_ge_increase (h : 10 ≤ s.tempo.toNat) (change : UInt8) :
    10 ≤ (audioIncreaseTempo change s).tempo.toNat := by
  unfold audioIncreaseTempo
  dsimp only
  have hlt := s.tempo.toNat_lt
  split_ifs with hlate
  · decide
  · rw [UInt8.toNat_add]
    omega

theorem tempo_ge_decrease (h : 10 ≤ s.tempo.toNat) (change : UInt8) :
    10 ≤ (audioDecreaseTempo change s).tempo.toNat := by
  unfold audioDecreaseTempo
  dsimp only
  split_ifs with hslow
  · decide
  · have hle : change ≤ s.tempo := UInt8.le_iff_toNat_le.mpr (by omega)
    rw [UInt8.toNat_sub_of_le _ _ hle]
    omega

variable [DecidableEq α]

/-! ## The property -/

/-- The entries below {lit}`activeTones` hold distinct pitches in the order in which they were
started last, the others are empty; a note plays just if there is one; and a melody that plays
is at one of its notes. -/
structure Consistent (b : Build α) (s : State α) : Prop where
  active_le : s.activeTones ≤ b.stackSize
  latest : ∃ pitches : List α, pitches.length = s.activeTones ∧
    (∀ i < s.activeTones, (s.tones i).pitch = pitches[i]?) ∧ Latest s.starts pitches
  empty : ∀ i, s.activeTones ≤ i → i < b.stackSize → s.tones i = Tone.empty
  playing_iff : s.playingNote = true ↔ 0 < s.activeTones
  melody : s.playingMelody = true → s.currentNote < s.melody.count.toNat

/-- The call divides by no zero, and the state after it is consistent. -/
def Right (b : Build α) (s : State α) (c : Call α) : Prop :=
  ∃ s', call b s c = some s' ∧ Consistent b s'

/-- The last note of a melody that is played once is over. -/
def State.Ends (s : State α) (now : UInt16) : Prop :=
  s.Due now ∧ s.currentNote + 1 ≥ s.melody.count.toNat ∧ s.melody.repeats = false

instance (s : State α) (now : UInt16) : Decidable (s.Ends now) :=
  inferInstanceAs (Decidable (_ ∧ _ ∧ _))

/-- A melody ends while the driver runs, and there is a multiplexing rate while a note
plays, or the melody starts one. -/
def Meets (b : Build α) (s : State α) : Call α → Prop
  | .updateState now _ =>
    if s.Ends now then s.driverStopped = false
    else
      b.multiplexing = true → s.playingNote = true ∨ s.Due now ∧ s.enable = true → s.rate ≠ 0
  | _ => True

/-! ## The stack -/

/-- What holds of the tones. -/
structure Stack (b : Build α) (s : State α) (ts : List (Tone α)) (pitches : List α) : Prop where
  holds : Holds b s.tones ts
  active_eq : s.activeTones = ts.length
  pitch_eq : ts.map Tone.pitch = pitches.map some
  latest : Latest s.starts pitches
  playing_iff : s.playingNote = true ↔ 0 < s.activeTones
  stopped_iff : s.driverStopped = true ↔ s.activeTones = 0

/-- The invariant of the calls. -/
structure Inv (b : Build α) (s : State α) : Prop where
  stack : ∃ ts pitches, Stack b s ts pitches
  melody : s.playingMelody = true → s.currentNote < s.melody.count.toNat
  tempo_ge : 10 ≤ s.tempo.toNat

theorem Stack.length_eq {ts : List (Tone α)} {pitches : List α} (h : Stack b s ts pitches) :
    ts.length = pitches.length := by
  have hmap := congrArg List.length h.pitch_eq
  rwa [List.length_map, List.length_map] at hmap

theorem Stack.pitch_at {ts : List (Tone α)} {pitches : List α} (h : Stack b s ts pitches) {i : ℕ}
    (hi : i < b.stackSize) : (s.tones i).pitch = pitches[i]? := by
  have hmap := congrArg (·[i]?) h.pitch_eq
  simp only [List.getElem?_map] at hmap
  rw [h.holds.get i hi]
  cases htone : ts[i]? with
  | none =>
    rw [htone] at hmap
    cases hpitch : pitches[i]? with
    | none => rfl
    | some pitch => rw [hpitch] at hmap; exact absurd hmap (by simp)
  | some tone =>
    rw [htone] at hmap
    cases hpitch : pitches[i]? with
    | none => rw [hpitch] at hmap; exact absurd hmap (by simp)
    | some pitch =>
      rw [hpitch] at hmap
      exact Option.some.inj hmap

/-- The invariant is about more than the property. -/
theorem Inv.consistent (h : Inv b s) : Consistent b s := by
  obtain ⟨ts, pitches, hstack⟩ := h.stack
  have hle : s.activeTones ≤ b.stackSize := hstack.active_eq ▸ hstack.holds.length_le
  refine ⟨hle, ⟨pitches, hstack.active_eq ▸ hstack.length_eq.symm, ?_, hstack.latest⟩, ?_,
    hstack.playing_iff, h.melody⟩
  · exact fun i hi => hstack.pitch_at (Nat.lt_of_lt_of_le hi hle)
  · intro i hi hsize
    rw [hstack.active_eq] at hi
    rw [hstack.holds.get i hsize, List.getElem?_eq_none hi]
    rfl

theorem inv_boot (b : Build α) (enable : Bool) : Inv b (State.boot b enable) where
  stack := ⟨[], [], ⟨⟨Nat.zero_le _, fun _ _ => rfl⟩, rfl, rfl, latest_nil _, by simp [State.boot],
    by simp [State.boot]⟩⟩
  melody := fun h => absurd h Bool.false_ne_true
  tempo_ge := (by decide : 10 ≤ (120 : UInt8).toNat)

/-! ## Calls -/

theorem findTone_some {tones : ℕ → Tone α} {pitch : α} {n i : ℕ}
    (h : findTone tones pitch n = some i) : i < n ∧ (tones i).pitch = some pitch := by
  induction n with
  | zero => exact absurd h (by simp [findTone])
  | succ n ih =>
    unfold findTone at h
    split_ifs at h with hpitch
    · obtain rfl : n = i := Option.some.inj h
      exact ⟨Nat.lt_succ_self n, hpitch⟩
    · exact ⟨Nat.lt_succ_of_lt (ih h).1, (ih h).2⟩

theorem findTone_none {tones : ℕ → Tone α} {pitch : α} {n : ℕ}
    (h : findTone tones pitch n = none) {i : ℕ} (hi : i < n) : (tones i).pitch ≠ some pitch := by
  induction n with
  | zero => omega
  | succ n ih =>
    unfold findTone at h
    split_ifs at h with hpitch
    rcases Nat.lt_succ_iff_lt_or_eq.mp hi with hlt | rfl
    · exact ih h hlt
    · exact hpitch

/-- Only the variables of the stack count. -/
theorem Stack.of_eq {s' : State α} {ts : List (Tone α)} {pitches : List α}
    (h : Stack b s ts pitches) (htones : s'.tones = s.tones)
    (hactive : s'.activeTones = s.activeTones) (hplaying : s'.playingNote = s.playingNote)
    (hstopped : s'.driverStopped = s.driverStopped) (hstarts : s'.starts = s.starts) :
    Stack b s' ts pitches where
  holds := htones ▸ h.holds
  active_eq := hactive ▸ h.active_eq
  pitch_eq := h.pitch_eq
  latest := hstarts ▸ h.latest
  playing_iff := by rw [hplaying, hactive]; exact h.playing_iff
  stopped_iff := by rw [hstopped, hactive]; exact h.stopped_iff

theorem Stack.active_le {ts : List (Tone α)} {pitches : List α} (h : Stack b s ts pitches) :
    s.activeTones ≤ b.stackSize :=
  h.active_eq ▸ h.holds.length_le

/-- The place of a pitch that was found. -/
theorem Stack.found {ts : List (Tone α)} {pitches : List α} (h : Stack b s ts pitches) {i : ℕ}
    {pitch : α} (hi : i < b.stackSize) (hpitch : (s.tones i).pitch = some pitch) :
    ∃ hlt : i < pitches.length, pitches[i] = pitch := by
  rw [h.pitch_at hi] at hpitch
  exact List.getElem?_eq_some_iff.mp hpitch

/-- What a stack is after {lit}`audio_stop_all`. -/
theorem stack_audioStopAll {ts : List (Tone α)} {pitches : List α} (h : Stack b s ts pitches) :
    ∃ ts' pitches', Stack b (audioStopAll b s) ts' pitches' := by
  unfold audioStopAll
  split_ifs with hstopped
  · exact ⟨ts, pitches, h⟩
  · refine ⟨[], [], ⟨Nat.zero_le _, fun i hi => ?_⟩, rfl, rfl, latest_nil _, ?_, ?_⟩
    · exact if_pos hi
    · exact iff_of_false Bool.false_ne_true (Nat.lt_irrefl 0)
    · exact iff_of_true rfl rfl

theorem stack_audioStopTone {ts : List (Tone α)} {pitches : List α} (h : Stack b s ts pitches)
    (pitch : α) : ∃ ts' pitches', Stack b (audioStopTone b pitch s) ts' pitches' := by
  have hle := h.active_le
  have hlt := b.stack_lt
  unfold audioStopTone
  split_ifs with hplaying
  · cases hfind : findTone s.tones pitch b.stackSize with
    | none => exact ⟨ts, pitches, h⟩
    | some i =>
      obtain ⟨hi, hpitch⟩ := findTone_some hfind
      obtain ⟨hplace, -⟩ := h.found hi hpitch
      rw [← h.length_eq] at hplace
      have hactive := h.active_eq
      have hrest : (s.activeTones + 255) % 256 = s.activeTones - 1 := by omega
      refine ⟨ts.eraseIdx i, pitches.eraseIdx i, h.holds.remove hi, ?_, ?_, ?_, ?_, ?_⟩
      · dsimp only
        rw [hrest, List.length_eraseIdx_of_lt hplace, hactive]
      · rw [← List.eraseIdx_map, ← List.eraseIdx_map, h.pitch_eq]
      · exact h.latest.sublist (List.eraseIdx_sublist pitches i)
      · dsimp only
        rw [hrest]
        by_cases hnone : s.activeTones - 1 = 0
        · rw [if_pos hnone]
          exact iff_of_false Bool.false_ne_true (by omega)
        · rw [if_neg hnone]
          exact iff_of_true hplaying (by omega)
      · dsimp only
        rw [hrest]
        by_cases hnone : s.activeTones - 1 = 0
        · rw [if_pos hnone]
          exact iff_of_true rfl hnone
        · rw [if_neg hnone]
          refine iff_of_false (fun hstopped => ?_) hnone
          have hzero := h.stopped_iff.mp hstopped
          omega
  · exact ⟨ts, pitches, h⟩

/-- The last entry of a list stays at the end. -/
theorem eraseIdx_last {β : Type*} {l : List β} {i : ℕ} (hi : i < l.length)
    (hlast : l.length ≤ i + 1) : l.eraseIdx i ++ [l[i]] = l := by
  rw [List.eraseIdx_eq_take_drop_succ, List.drop_eq_nil_of_le hlast, List.append_nil,
    List.take_append_getElem, List.take_of_length_le hlast]

theorem stack_audioPlayNote {ts : List (Tone α)} {pitches : List α} (h : Stack b s ts pitches)
    (pitch : α) (duration now : UInt16) :
    ∃ ts' pitches', Stack b (audioPlayNote b pitch duration now s) ts' pitches' := by
  have hle := h.active_le
  have hlt := b.stack_lt
  have hpos := b.stack_pos
  have hactive := h.active_eq
  unfold audioPlayNote
  by_cases hsilent : ¬ s.enable = true
  · rw [if_pos hsilent]
    exact ⟨ts, pitches, h⟩
  rw [if_neg hsilent]
  dsimp only
  cases hfind : findTone s.tones pitch s.activeTones with
  | some i =>
    obtain ⟨hi, hpitch⟩ := findTone_some hfind
    obtain ⟨hplace, rfl⟩ := h.found (Nat.lt_of_lt_of_le hi hle) hpitch
    have hlength := h.length_eq
    have huse := h.latest.use_at hplace
    by_cases hlast : i + 1 < ts.length
    · refine ⟨ts.eraseIdx i ++ [⟨now, some pitches[i], duration⟩],
        pitches.eraseIdx i ++ [pitches[i]], ?_, ?_, ?_, huse, h.playing_iff, h.stopped_iff⟩
      · dsimp only
        rw [hactive]
        exact h.holds.moveToEnd hlast _
      · dsimp only
        rw [List.length_append, List.length_singleton, List.length_eraseIdx_of_lt (by omega)]
        omega
      · rw [List.map_append, List.map_append, ← List.eraseIdx_map, ← List.eraseIdx_map, h.pitch_eq]
        rfl
    · -- the tone on top stays as it is
      rw [eraseIdx_last hplace (by omega)] at huse
      have hnone : s.activeTones - 1 - i = 0 := by omega
      refine ⟨ts, pitches, ?_, hactive, h.pitch_eq, huse, h.playing_iff, h.stopped_iff⟩
      dsimp only
      rw [hnone]
      exact h.holds
  | none =>
    have hnew : pitch ∉ pitches := by
      intro hmem
      obtain ⟨i, hi, rfl⟩ := List.getElem_of_mem hmem
      have hlength := h.length_eq
      refine findTone_none hfind (i := i) (by omega) ?_
      rw [h.pitch_at (by omega), List.getElem?_eq_getElem hi]
    have huse := h.latest.use_new hnew
    have hgrown : (s.activeTones + 1) % 256 = s.activeTones + 1 := by omega
    dsimp only
    rw [hgrown]
    by_cases hfull : s.activeTones + 1 > b.stackSize
    · rw [if_pos hfull, if_pos hfull]
      have hlen : ts.length = b.stackSize := by omega
      refine ⟨ts.tail ++ [⟨now, some pitch, duration⟩], pitches.tail ++ [pitch],
        h.holds.pushOut hlen _, ?_, ?_, ?_, ?_, ?_⟩
      · dsimp only
        rw [List.length_append, List.length_singleton, List.length_tail]
        omega
      · rw [List.map_append, List.map_append, List.map_tail, List.map_tail, h.pitch_eq]
        rfl
      · exact huse.sublist ((List.tail_sublist pitches).append_right [pitch])
      · exact iff_of_true rfl hpos
      · exact iff_of_false Bool.false_ne_true (Nat.ne_of_gt hpos)
    · rw [if_neg hfull, if_neg hfull]
      refine ⟨ts ++ [⟨now, some pitch, duration⟩], pitches ++ [pitch], ?_, ?_, ?_, huse, ?_, ?_⟩
      · rw [Nat.add_sub_cancel, hactive]
        exact h.holds.push (by omega) _
      · rw [List.length_append, List.length_singleton, hactive]
      · rw [List.map_append, List.map_append, h.pitch_eq]
        rfl
      · exact iff_of_true rfl (Nat.succ_pos _)
      · exact iff_of_false Bool.false_ne_true (Nat.succ_ne_zero _)

/-! ## The invariant -/

theorem same_audioStopTone (pitch : α) (s : State α) :
    SameMelody s (audioStopTone b pitch s) := by
  unfold audioStopTone
  split_ifs
  · cases findTone s.tones pitch b.stackSize with
    | none => exact .refl s
    | some i => exact ⟨rfl, rfl, rfl, rfl, rfl⟩
  · exact .refl s

theorem same_audioPlayNote (pitch : α) (duration now : UInt16) (s : State α) :
    SameMelody s (audioPlayNote b pitch duration now s) := by
  unfold audioPlayNote
  by_cases hsilent : ¬ s.enable = true
  · rw [if_pos hsilent]
    exact .refl s
  rw [if_neg hsilent]
  dsimp only
  cases findTone s.tones pitch s.activeTones with
  | some i => exact ⟨rfl, rfl, rfl, rfl, rfl⟩
  | none => exact ⟨rfl, rfl, rfl, rfl, rfl⟩

theorem Inv.of_same {s' : State α} (h : Inv b s) (hsame : SameMelody s s')
    (hstack : ∃ ts pitches, Stack b s' ts pitches) : Inv b s' where
  stack := hstack
  melody := by
    rw [hsame.playingMelody, hsame.currentNote, hsame.melody]
    exact h.melody
  tempo_ge := hsame.tempo ▸ h.tempo_ge

theorem inv_audioStopTone (h : Inv b s) (pitch : α) : Inv b (audioStopTone b pitch s) := by
  obtain ⟨ts, pitches, hstack⟩ := h.stack
  exact h.of_same (same_audioStopTone pitch s) (stack_audioStopTone hstack pitch)

theorem inv_audioPlayNote (h : Inv b s) (pitch : α) (duration now : UInt16) :
    Inv b (audioPlayNote b pitch duration now s) := by
  obtain ⟨ts, pitches, hstack⟩ := h.stack
  exact h.of_same (same_audioPlayNote pitch duration now s)
    (stack_audioPlayNote hstack pitch duration now)

/-- While the driver runs all is stopped, whatever the melody is at. -/
theorem inv_stopped {ts : List (Tone α)} {pitches : List α} (h : Stack b s ts pitches)
    (hruns : s.driverStopped = false) (htempo : 10 ≤ s.tempo.toNat) :
    Inv b (audioStopAll b s) where
  stack := stack_audioStopAll h
  melody := by
    rw [playingMelody_audioStopAll hruns]
    exact fun hplaying => absurd hplaying Bool.false_ne_true
  tempo_ge := (tempo_audioStopAll (b := b) s).symm ▸ htempo

theorem inv_audioStopAll (h : Inv b s) : Inv b (audioStopAll b s) := by
  by_cases hstopped : s.driverStopped = true
  · have hsame : audioStopAll b s = s := if_pos hstopped
    rw [hsame]
    exact h
  · obtain ⟨ts, pitches, hstack⟩ := h.stack
    exact inv_stopped hstack (Bool.not_eq_true _ ▸ hstopped) h.tempo_ge

/-- If audio is on a note plays after it was started. -/
theorem playingNote_audioPlayNote {ts : List (Tone α)} {pitches : List α}
    (h : Stack b s ts pitches) (pitch : α) (duration now : UInt16) :
    (audioPlayNote b pitch duration now s).playingNote = true ↔
      s.playingNote = true ∨ s.enable = true := by
  unfold audioPlayNote
  by_cases hsilent : ¬ s.enable = true
  · rw [if_pos hsilent]
    exact (or_iff_left hsilent).symm
  rw [if_neg hsilent]
  dsimp only
  refine iff_of_true ?_ (.inr (not_not.mp hsilent))
  cases hfind : findTone s.tones pitch s.activeTones with
  | some i => exact h.playing_iff.mpr (Nat.lt_of_le_of_lt (Nat.zero_le i) (findTone_some hfind).1)
  | none => rfl

/-! ## Melodies -/

theorem inv_audioPlayMelody (h : Inv b s) (melody : Melody α) (now : UInt16) :
    ∃ s', audioPlayMelody b melody now s = some s' ∧ Inv b s' := by
  unfold audioPlayMelody
  by_cases hsilent : ¬ s.enable = true
  · rw [if_pos hsilent]
    exact ⟨_, rfl, inv_audioStopAll h⟩
  rw [if_neg hsilent]
  by_cases hnone : melody.count = 0
  · rw [if_pos hnone]
    exact ⟨s, rfl, h⟩
  rw [if_neg hnone]
  dsimp only
  have hbefore : Inv b (if s.playingNote then audioStopAll b s else s) := by
    split_ifs
    · exact inv_audioStopAll h
    · exact h
  generalize (if s.playingNote then audioStopAll b s else s) = s' at hbefore ⊢
  obtain ⟨ts, pitches, hstack⟩ := hbefore.stack
  have hcount : 0 < melody.count.toNat := by
    refine Nat.pos_of_ne_zero fun hzero => hnone (UInt16.toNat_inj.mp hzero)
  have hfirst : Inv b
      { s' with
        playingMelody := true
        noteResting := false
        melody := melody
        currentNote := 0 } :=
    ⟨⟨ts, pitches, hstack.of_eq rfl rfl rfl rfl rfl⟩, fun _ => hcount, hbefore.tempo_ge⟩
  obtain ⟨duration, hduration⟩ := audioDurationToMs_some hbefore.tempo_ge (melody.notes 0).2
  rw [hduration]
  have hplayed := inv_audioPlayNote hfirst (melody.notes 0).1 duration now
  obtain ⟨ts', pitches', hstack'⟩ := hplayed.stack
  exact ⟨_, rfl, ⟨ts', pitches', hstack'.of_eq rfl rfl rfl rfl rfl⟩, hplayed.melody,
    hplayed.tempo_ge⟩

/-- The next note of a melody. -/
theorem inv_playNext (h : Inv b s) {previous : ℕ} (hprevious : previous < s.melody.count.toNat)
    (hcurrent : s.currentNote < s.melody.count.toNat) (delta now : UInt16) :
    ∃ s', playNext b previous delta now s = some s' ∧ Inv b s' ∧ s'.rate = s.rate ∧
      (s'.playingNote = true ↔ s.playingNote = true ∨ s.enable = true) := by
  -- a note is started in a state with the same stack, at a note of the melody
  have hstart : ∀ (resting : Bool) (current last : ℕ) (pitch : α) (duration length : UInt16),
      current < s.melody.count.toNat → last < s.melody.count.toNat →
      Inv b { audioPlayNote b pitch duration now
          { s with noteResting := resting, currentNote := current } with
        currentNote := last, noteDuration := length } ∧
      ((audioPlayNote b pitch duration now
          { s with noteResting := resting, currentNote := current }).playingNote = true ↔
        s.playingNote = true ∨ s.enable = true) := by
    intro resting current last pitch duration length hcurrent hlast
    obtain ⟨ts, pitches, hstack⟩ := h.stack
    have hstack' : Stack b { s with noteResting := resting, currentNote := current } ts pitches :=
      hstack.of_eq rfl rfl rfl rfl rfl
    have hsame := same_audioPlayNote (b := b) pitch duration now
      { s with noteResting := resting, currentNote := current }
    obtain ⟨ts', pitches', hplayed⟩ := stack_audioPlayNote hstack' pitch duration now
    refine ⟨⟨⟨ts', pitches', hplayed.of_eq rfl rfl rfl rfl rfl⟩, fun _ => ?_, ?_⟩,
      playingNote_audioPlayNote hstack' pitch duration now⟩
    · exact (congrArg (fun m => last < m.count.toNat) hsame.melody).mpr hlast
    · exact (congrArg (fun t : UInt8 => 10 ≤ t.toNat) hsame.tempo).mpr h.tempo_ge
  unfold playNext
  by_cases hpause : ¬ s.noteResting = true ∧
      (s.melody.notes previous).1 = (s.melody.notes s.currentNote).1
  · obtain ⟨pause, hms⟩ := audioDurationToMs_some h.tempo_ge 2
    rw [if_pos hpause, hms]
    obtain ⟨hinv, hplaying⟩ := hstart true s.currentNote previous b.rest pause pause hcurrent
      hprevious
    exact ⟨_, rfl, hinv, (same_audioPlayNote b.rest pause now _).rate, hplaying⟩
  · obtain ⟨duration, hms⟩ := audioDurationToMs_some h.tempo_ge (s.melody.notes s.currentNote).2
    obtain ⟨delta', duration', current, hskip, hle⟩ := skipMissed_some h.tempo_ge s.melody.notes
      (s.melody.count.toNat - 1 - s.currentNote) delta duration s.currentNote
    rw [if_neg hpause, hms, Option.bind_some, hskip]
    have hnote : current < s.melody.count.toNat := by omega
    obtain ⟨hinv, hplaying⟩ := hstart false current current (s.melody.notes current).1
      (if delta' < duration' then duration' - delta' else 1)
      (if delta' < duration' then duration' - delta' else 1) hnote hnote
    have hsame := same_audioPlayNote (b := b) (s.melody.notes current).1
      (if delta' < duration' then duration' - delta' else 1) now
      { s with noteResting := false, currentNote := current }
    refine ⟨_, rfl, ?_, hsame.rate, hplaying⟩
    exact ⟨hinv.stack.imp fun _ h => h.imp fun _ h => h.of_eq rfl rfl rfl rfl rfl,
      fun _ => (congrArg (fun m => _ < m.count.toNat) hsame.melody).mpr
        (hsame.currentNote.symm ▸ hnote), hinv.tempo_ge⟩

/-! ## Updates -/

theorem inv_expire (now : UInt16) (n i : ℕ) {s : State α} (h : Inv b s) :
    Inv b (expire b now n i s) := by
  induction n generalizing i s with
  | zero => exact h
  | succ n ih =>
    unfold expire
    by_cases hactive : i < s.activeTones
    · rw [if_pos hactive]
      dsimp only
      split_ifs with hover
      · cases (s.tones i).pitch with
        | none => exact ih (i + 1) h
        | some pitch => exact ih (i + 1) (inv_audioStopTone h pitch)
      · exact ih (i + 1) h
    · rw [if_neg hactive]
      exact h

/-- Tones are updated unless the rate is 0 where it is divided by. -/
theorem updateNotes_cases (h : Inv b s) (now : UInt16) (effects nextNote : Bool) :
    (b.multiplexing = true → s.playingNote = true → s.rate ≠ 0) ∧
        (∃ s' flag, updateNotes b now effects nextNote s = some (s', flag) ∧ Inv b s') ∨
      ¬ (b.multiplexing = true → s.playingNote = true → s.rate ≠ 0) ∧
        updateNotes b now effects nextNote s = none := by
  obtain ⟨ts, pitches, hstack⟩ := h.stack
  have hzero : s.playingNote = true → min b.maxSimultaneous s.activeTones ≠ 0 := by
    intro hplaying
    have hactive := hstack.playing_iff.mp hplaying
    have hmax := b.simultaneous_pos
    omega
  unfold updateNotes
  dsimp only
  by_cases hdivides : s.playingNote = true ∧ b.multiplexing = true ∧
      (s.rate = 0 ∨ min b.maxSimultaneous s.activeTones = 0)
  · obtain ⟨hplaying, hmultiplexing, hrate⟩ := hdivides
    have hrate' := hrate.resolve_right (hzero hplaying)
    exact .inr ⟨fun hcond => hcond hmultiplexing hplaying hrate',
      if_pos ⟨hplaying, hmultiplexing, hrate⟩⟩
  · refine .inl ⟨fun hmultiplexing hplaying hrate =>
      hdivides ⟨hplaying, hmultiplexing, .inl hrate⟩, ?_⟩
    rw [if_neg hdivides]
    have hshifted : Inv b (if s.playingNote = true ∧ b.multiplexing = true then
        { s with indexShift := (now / s.rate).toNat % min b.maxSimultaneous s.activeTones }
        else s) := by
      split_ifs
      · exact ⟨⟨ts, pitches, hstack.of_eq rfl rfl rfl rfl rfl⟩, h.melody, h.tempo_ge⟩
      · exact h
    generalize (if s.playingNote = true ∧ b.multiplexing = true then
      { s with indexShift := (now / s.rate).toNat % min b.maxSimultaneous s.activeTones }
      else s) = shifted at hshifted ⊢
    have hexpired : Inv b (if s.playingNote = true then
        expire b now shifted.activeTones 0 shifted else s) := by
      split_ifs
      · exact inv_expire now _ 0 hshifted
      · exact h
    generalize (if s.playingNote = true then expire b now shifted.activeTones 0 shifted else s) =
      s' at hexpired ⊢
    obtain ⟨ts', pitches', hstack'⟩ := hexpired.stack
    split_ifs
    · exact ⟨_, _, rfl, ⟨ts', pitches', hstack'.of_eq rfl rfl rfl rfl rfl⟩, hexpired.melody,
        hexpired.tempo_ge⟩
    · exact ⟨_, _, rfl, hexpired⟩

/-- A note of the melody is started, and the tones are updated. -/
theorem playNext_cases (h : Inv b s) {previous : ℕ} (hprevious : previous < s.melody.count.toNat)
    (hcurrent : s.currentNote < s.melody.count.toNat) (delta now : UInt16) (effects : Bool) :
    (b.multiplexing = true → s.playingNote = true ∨ s.enable = true → s.rate ≠ 0) ∧
        (∃ s' flag, (playNext b previous delta now s).bind (updateNotes b now effects true) =
          some (s', flag) ∧ Inv b s') ∨
      ¬ (b.multiplexing = true → s.playingNote = true ∨ s.enable = true → s.rate ≠ 0) ∧
        (playNext b previous delta now s).bind (updateNotes b now effects true) = none := by
  obtain ⟨s', hnext, hinv, hrate, hplaying⟩ := inv_playNext h hprevious hcurrent delta now
  rw [hnext, Option.bind_some, ← hplaying, ← hrate]
  exact updateNotes_cases hinv now effects true

/-- What an update leads to. -/
theorem updateState_cases (h : Inv b s) (now : UInt16) (effects : Bool) :
    Meets b s (.updateState now effects) ∧
        (∃ s' flag, audioUpdateState b now effects s = some (s', flag) ∧ Inv b s') ∨
      ¬ Meets b s (.updateState now effects) ∧
        ∀ s' flag, audioUpdateState b now effects s = some (s', flag) → ¬ Consistent b s' := by
  unfold audioUpdateState
  by_cases hidle : ¬ s.playingNote = true ∧ ¬ s.playingMelody = true
  · -- nothing plays
    rw [if_pos hidle]
    refine .inl ⟨?_, s, false, rfl, h⟩
    have hends : ¬ s.Ends now := fun hends => hidle.2 hends.1.1
    simp only [Meets, if_neg hends]
    rintro - (hplaying | ⟨hdue, -⟩)
    · exact absurd hplaying hidle.1
    · exact absurd hdue.1 hidle.2
  rw [if_neg hidle]
  by_cases hdue : s.Due now
  · rw [if_pos hdue]
    dsimp only
    have hnote := h.melody hdue.1
    have hcount := s.melody.count.toNat_lt
    have hnext : (s.currentNote + 1) % 65536 = s.currentNote + 1 := by omega
    rw [hnext]
    obtain ⟨ts, pitches, hstack⟩ := h.stack
    have hmoved : ∀ note < s.melody.count.toNat,
        Inv b { s with lastTimestamp := now, currentNote := note } := fun note hlt =>
      ⟨⟨ts, pitches, hstack.of_eq rfl rfl rfl rfl rfl⟩, fun _ => hlt, h.tempo_ge⟩
    -- the melody goes on with a note
    have hgoes : ∀ note < s.melody.count.toNat, ¬ s.Ends now →
        ∀ result, result = (playNext b s.currentNote (now - s.lastTimestamp - s.noteDuration) now
          { s with lastTimestamp := now, currentNote := note }).bind
            (updateNotes b now effects true) →
        Meets b s (.updateState now effects) ∧ (∃ s' flag, result = some (s', flag) ∧ Inv b s') ∨
          ¬ Meets b s (.updateState now effects) ∧
            ∀ s' flag, result = some (s', flag) → ¬ Consistent b s' := by
      rintro note hlt hends result rfl
      have hmeets : Meets b s (.updateState now effects) ↔
          (b.multiplexing = true → s.playingNote = true ∨ s.enable = true → s.rate ≠ 0) := by
        simp only [Meets, if_neg hends]
        rw [and_iff_right hdue]
      rw [hmeets]
      rcases playNext_cases (hmoved note hlt) hnote hlt (now - s.lastTimestamp - s.noteDuration)
        now effects with hright | ⟨hwrong, hnone⟩
      · exact .inl hright
      · refine .inr ⟨hwrong, fun s' flag hsome => ?_⟩
        rw [hnone] at hsome
        exact absurd hsome (by simp)
    by_cases hlast : s.currentNote + 1 ≥ s.melody.count.toNat
    · rw [if_pos hlast]
      cases hrepeats : s.melody.repeats with
      | true =>
        rw [if_pos rfl]
        exact hgoes 0 (by omega)
          (fun hends => absurd (hrepeats.symm.trans hends.2.2) Bool.false_ne_true.symm) _ rfl
      | false =>
        rw [if_neg Bool.false_ne_true]
        have hmeets : Meets b s (.updateState now effects) ↔ s.driverStopped = false := by
          have hends : s.Ends now := ⟨hdue, hlast, hrepeats⟩
          simp only [Meets, if_pos hends]
        rw [hmeets]
        by_cases hstopped : s.driverStopped = true
        · -- nothing is stopped, and the melody goes on behind its last note
          refine .inr ⟨fun hruns => absurd (hstopped.symm.trans hruns) Bool.false_ne_true.symm, ?_⟩
          intro s' flag hsome hconsistent
          have hsame : audioStopAll b
              { s with lastTimestamp := now, currentNote := s.currentNote + 1 } =
              { s with lastTimestamp := now, currentNote := s.currentNote + 1 } :=
            if_pos hstopped
          rw [hsame] at hsome
          obtain ⟨rfl, -⟩ := Prod.mk.inj (Option.some.inj hsome)
          exact absurd (hconsistent.melody hdue.1) (Nat.not_lt_of_le hlast)
        · rw [Bool.not_eq_true] at hstopped
          have hend : Stack b { s with lastTimestamp := now, currentNote := s.currentNote + 1 } ts
              pitches := hstack.of_eq rfl rfl rfl rfl rfl
          exact .inl ⟨hstopped, _, false, rfl, inv_stopped hend hstopped h.tempo_ge⟩
    · rw [if_neg hlast]
      exact hgoes (s.currentNote + 1) (by omega) (fun hends => hlast hends.2.1) _ rfl
  · rw [if_neg hdue]
    have hmeets : Meets b s (.updateState now effects) ↔
        (b.multiplexing = true → s.playingNote = true → s.rate ≠ 0) := by
      have hends : ¬ s.Ends now := fun hends => hdue hends.1
      simp only [Meets, if_neg hends]
      rw [or_iff_left fun hstarts => hdue hstarts.1]
    rw [hmeets]
    rcases updateNotes_cases h now effects false with hright | ⟨hwrong, hnone⟩
    · exact .inl hright
    · refine .inr ⟨hwrong, fun s' flag hsome => ?_⟩
      rw [hnone] at hsome
      exact absurd hsome (by simp)

/-! ## Runs -/

theorem inv_rate (h : Inv b s) (rate : UInt16) : Inv b { s with rate := rate } := by
  obtain ⟨ts, pitches, hstack⟩ := h.stack
  exact ⟨⟨ts, pitches, hstack.of_eq rfl rfl rfl rfl rfl⟩, h.melody, h.tempo_ge⟩

/-- A call that meets the condition is right and keeps the invariant. -/
theorem inv_call (h : Inv b s) {c : Call α} (hmeets : Meets b s c) :
    ∃ s', call b s c = some s' ∧ Inv b s' := by
  cases c with
  | playNote pitch duration now => exact ⟨_, rfl, inv_audioPlayNote h pitch duration now⟩
  | playTone pitch now => exact ⟨_, rfl, inv_audioPlayNote h pitch 0xFFFF now⟩
  | stopTone pitch => exact ⟨_, rfl, inv_audioStopTone h pitch⟩
  | stopAll => exact ⟨_, rfl, inv_audioStopAll h⟩
  | playMelody melody now => exact inv_audioPlayMelody h melody now
  | updateState now effects =>
    rcases updateState_cases h now effects with ⟨-, s', flag, hupdate, hinv⟩ | ⟨hnot, -⟩
    · exact ⟨s', congrArg (Option.map Prod.fst) hupdate, hinv⟩
    · exact absurd hmeets hnot
  | setTempo tempo =>
    obtain ⟨ts, pitches, hstack⟩ := h.stack
    refine ⟨_, rfl, ⟨ts, pitches, hstack.of_eq rfl rfl rfl rfl rfl⟩, h.melody, ?_⟩
    unfold audioSetTempo
    dsimp only
    split_ifs with hslow
    · decide
    · exact UInt8.le_iff_toNat_le.mp (UInt8.not_lt.mp hslow)
  | increaseTempo change =>
    obtain ⟨ts, pitches, hstack⟩ := h.stack
    exact ⟨_, rfl, ⟨ts, pitches, hstack.of_eq rfl rfl rfl rfl rfl⟩, h.melody,
      tempo_ge_increase h.tempo_ge change⟩
  | decreaseTempo change =>
    obtain ⟨ts, pitches, hstack⟩ := h.stack
    exact ⟨_, rfl, ⟨ts, pitches, hstack.of_eq rfl rfl rfl rfl rfl⟩, h.melody,
      tempo_ge_decrease h.tempo_ge change⟩
  | setRate rate => exact ⟨_, rfl, inv_rate h rate⟩
  | enableMultiplexing => exact ⟨_, rfl, inv_rate h b.rateDefault⟩
  | disableMultiplexing => exact ⟨_, rfl, inv_rate h 0⟩
  | increaseRate change => exact ⟨_, rfl, inv_rate h _⟩
  | decreaseRate change => exact ⟨_, rfl, inv_rate h _⟩

theorem right_iff_meets (h : Inv b s) (c : Call α) : Right b s c ↔ Meets b s c := by
  constructor
  · rintro ⟨s', hcall, hconsistent⟩
    cases c with
    | updateState now effects =>
      rcases updateState_cases h now effects with ⟨hmeets, -⟩ | ⟨-, hwrong⟩
      · exact hmeets
      · obtain ⟨⟨after, flag⟩, hupdate, rfl⟩ := Option.map_eq_some_iff.mp hcall
        exact absurd hconsistent (hwrong after flag hupdate)
    | _ => trivial
  · intro hmeets
    obtain ⟨s', hcall, hinv⟩ := inv_call h hmeets
    exact ⟨s', hcall, hinv.consistent⟩

/-- The stack is consistent after {lit}`audio_init`, and it stays so exactly in those runs that
end no melody while the driver is stopped, and do not turn multiplexing off while it is used. -/
theorem consistent_iff (b : Build α) (enable : Bool) (calls : List (Call α)) :
    Consistent b (State.boot b enable) ∧
    (Along (step b) (Right b) (State.boot b enable) calls ↔
      Along (step b) (Meets b) (State.boot b enable) calls) := by
  refine ⟨(inv_boot b enable).consistent, ?_⟩
  refine along_iff_of_invariant (Inv b) (fun _ c h => right_iff_meets h c) ?_ (inv_boot b enable)
  intro s c h hmeets
  obtain ⟨s', hcall, hinv⟩ := inv_call h hmeets
  unfold step
  rw [hcall]
  exact hinv

/-- A build with multiplexing; pitches are numbers. -/
def multiplexed : Build ℕ where
  stackSize := 8
  multiplexing := true
  maxSimultaneous := 3
  rateDefault := 0
  rest := 0
  stack_pos := by decide
  stack_lt := by decide
  simultaneous_pos := by decide

/-- The same build without multiplexing. -/
def single : Build ℕ :=
  { multiplexed with multiplexing := false }

/-- A melody of one note, which is stopped before it is over. -/
def stoppedMelody : List (Call ℕ) :=
  [.playMelody ⟨fun _ => (440, 16), 1, false⟩ 0, .stopTone 440]

/-- With the rate that turns multiplexing off, the first update divides by it.  And a melody whose
last note was stopped plays on when it is over, behind its last note. -/
theorem not_consistent :
    ¬ Along (step multiplexed) (Right multiplexed) (State.boot multiplexed true)
        [.playTone 440 0, .updateState 1 false] ∧
      ¬ Along (step single) (Right single) (State.boot single true)
        (stoppedMelody ++ [.updateState 125 false]) := by
  constructor
  · intro h
    obtain ⟨s', hcall, -⟩ := h.2.1
    have hnone : (call multiplexed
        (step multiplexed (State.boot multiplexed true) (.playTone 440 0))
        (.updateState 1 false)).isNone = true := by decide +kernel
    rw [hcall] at hnone
    exact absurd hnone Bool.false_ne_true
  · intro h
    obtain ⟨s', hcall, hconsistent⟩ := (along_append.mp h).2.1
    have hbehind : (call single (run (step single) (State.boot single true) stoppedMelody)
        (.updateState 125 false)).all (fun s => s.playingMelody ∧ s.currentNote = 1 ∧
          s.melody.count = 1) = true := by decide +kernel
    rw [hcall] at hbehind
    obtain ⟨hplaying, hnote, hcount⟩ := of_decide_eq_true hbehind
    have hlt := hconsistent.melody hplaying
    rw [hnote, hcount] at hlt
    exact absurd hlt (by decide)

end Audio
end VialQmk
