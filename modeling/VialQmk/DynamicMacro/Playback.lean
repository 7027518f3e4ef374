import VialQmk.DynamicMacro.Stored
import VialQmk.Library.Resumption
import Mathlib.Data.List.Nodup
import Mathlib.Data.List.Perm.Subperm

/-!
# Dynamic macros - the end of a playback

A record that is played goes through the whole keyboard.  On its way it may come to
{lit}`process_dynamic_macro` not at all, once, or more often: when a press ends a one-shot layer
{lit}`process_action` turns the record into a release and calls {lit}`process_record` again.  Other
records may come there, too.  Each time a play key starts another playback, which runs before the
record goes on.  The recorder lets play keys into a macro, also that of the macro itself.

The rest of the firmware is a parameter.  It works in a state of its own, and returns from each
record as long as {lit}`process_dynamic_macro` does.

Main results:

- Definition {lit}`turn`: one visit of a record to {lit}`process_dynamic_macro`, or its end.
- Definition {lit}`Recursive`: a macro is started while its playback runs.
- Theorem {lit}`playback_ends`: a playback that is not recursive ends.
-/

namespace VialQmk
namespace DynamicMacro

open StateMachine
open Tapping (KeyRecord)

variable {σ K : Type}

/-! ## Playback -/

/-- A call of {lit}`process_dynamic_macro`, with the answer of
{lit}`dynamic_macro_valid_key_user`. -/
structure Visit (K : Type) where
  keycode : UInt16
  /-- a record of its own, or the one that is played -/
  record : Option (KeyRecord K)
  valid : Bool

/-- What the rest of the firmware works on. -/
structure Shared (σ K : Type) where
  firmware : σ
  /-- the record that is played, as it is left -/
  record : KeyRecord K
  /-- {lit}`process_dynamic_macro` has let the key be processed further -/
  further : Bool

/-- The rest of {lit}`process_record`, around its calls of {lit}`process_dynamic_macro`. -/
abbrev Process (σ K : Type) :=
  Resumption (Visit K) (Shared σ K) Unit

/-- What a playback needs of the rest of the firmware. -/
structure Firmware (σ K : Type) where
  /-- before the loop: {lit}`clear_keyboard` and {lit}`layer_clear` -/
  enter : σ → σ
  /-- {lit}`process_record` on a record of a macro -/
  processRecord : Program (Visit K) (Shared σ K) Unit
  /-- behind the loop: {lit}`clear_keyboard` and {lit}`layer_state_set` -/
  leave : σ → σ

/-- A playback: what the innermost record is doing, and what is suspended around it. -/
structure Run (σ K : Type) where
  recorder : Recorder K
  current : Option (Process σ K)
  suspended : List (Shared σ K → Process σ K)

/-- The macro that a key event plays. -/
def Recorder.plays (s : Recorder K) (keycode : UInt16) (record : KeyRecord K) : Option Slot :=
  if s.macroId = none ∧ ¬ record.event.pressed then
    if keycode = qkDynamicMacroPlay1 then some .one
    else if keycode = qkDynamicMacroPlay2 then some .two
    else none
  else none

variable (build : Build) (fw : Firmware σ K)

/-- The loop calls {lit}`process_record` with its next record. -/
def begin (x : σ) (s : Recorder K) : Option (Process σ K) :=
  s.playing.head?.map fun p => fw.processRecord ⟨x, s.macroBuffer p.macroBuffer, true⟩

/-- {lit}`process_dynamic_macro` returns false to the record that has started a playback, or the
outermost playback has ended. -/
def resume (x : σ) (suspended : List (Shared σ K → Process σ K)) (s : Recorder K) : Run σ K :=
  match s.playing, suspended with
  | p :: _, k :: suspended => ⟨s, some (k ⟨x, s.macroBuffer p.macroBuffer, false⟩), suspended⟩
  | _, _ => ⟨s, none, suspended⟩

/-- {lit}`dynamic_macro_play`, up to its first record or the end of an empty macro. -/
def play (slot : Slot) (x : σ) (suspended : List (Shared σ K → Process σ K)) (s : Recorder K) :
    Run σ K :=
  let s' := dynamicMacroPlay (slot.macroBuffer build.size) (s.endOf slot) slot.direction s
  if slot.macroBuffer build.size ≠ s.endOf slot then ⟨s', begin fw (fw.enter x) s', suspended⟩
  else resume (fw.leave (fw.enter x)) suspended s'

/-- {lit}`process_record` returns, and the loop goes on or is over. -/
def returns (p : Playback) (shared : Shared σ K) (t : Run σ K) : Run σ K :=
  let s := t.recorder.write p.macroBuffer shared.record
  match p.next with
  | some q =>
    let s := { s with playing := q :: s.playing.tail }
    ⟨s, begin fw shared.firmware s, t.suspended⟩
  | none =>
    resume (fw.leave shared.firmware) t.suspended { s with playing := s.playing.tail }

/-- {lit}`process_dynamic_macro` is called, and starts a playback or returns. -/
def visit (p : Playback) (v : Visit K) (shared : Shared σ K) (k : Shared σ K → Process σ K)
    (t : Run σ K) : Run σ K :=
  let s := t.recorder.write p.macroBuffer shared.record
  let record := v.record.getD shared.record
  match s.plays v.keycode record with
  | some slot => play build fw slot shared.firmware (k :: t.suspended) s
  | none =>
    let res := processDynamicMacro build v.keycode record v.valid s
    ⟨res.1, some (k ⟨shared.firmware, res.1.macroBuffer p.macroBuffer, res.2⟩), t.suspended⟩

/-- The innermost record goes on to its next call of {lit}`process_dynamic_macro`, or to its
end. -/
def turn (t : Run σ K) : Run σ K :=
  match t.recorder.playing, t.current with
  | p :: _, some (.done shared _) => returns fw p shared t
  | p :: _, some (.call v shared k) => visit build fw p v shared k t
  | _, _ => t

/-- At most {lit}`n` turns, until no playback runs. -/
def playback (n : ℕ) (t : Run σ K) : Run σ K :=
  BoundedLoop.run (fun t => !t.recorder.playing.isEmpty) (turn build fw) n t

/-- The macro that the next turn plays. -/
def starts (t : Run σ K) : Option Slot :=
  match t.current with
  | some (.call v shared _) => t.recorder.plays v.keycode (v.record.getD shared.record)
  | _ => none

/-- The next turn plays a macro whose playback runs. -/
def Recursive (t : Run σ K) : Prop :=
  ∃ slot ∈ starts t, ∃ p ∈ t.recorder.playing, p.direction = slot.direction

instance (t : Run σ K) : Decidable (Recursive t) :=
  decidable_of_iff
    ((starts t).any fun slot => t.recorder.playing.any fun p => p.direction = slot.direction)
    (by simp [Recursive, Option.any_eq_true])

/-! ## Bounds -/

/-- Where the pointer of a recording may be. -/
def PointerFits (size : ℕ) (s : Recorder K) : Slot → Prop
  | .one => 0 ≤ s.macroPointer ∧ s.macroPointer ≤ s.rMacroEnd + 1
  | .two => s.macroEnd - 1 ≤ s.macroPointer ∧ s.macroPointer < size

/-- The macros lie apart from each other, whatever is stored in them. -/
structure InBounds (build : Build) (s : Recorder K) : Prop where
  base_le : 0 ≤ s.macroEnd
  apart : s.macroEnd ≤ s.rMacroEnd + 1
  end_le : s.rMacroEnd + 1 ≤ build.size
  pointer : ∀ slot, s.macroId = some slot → PointerFits build.size s slot
  playing : ∀ p ∈ s.playing, p.Fits build.size

section InBounds

variable {build : Build} {s : Recorder K}

theorem inBounds_initial (build : Build) (zero : KeyRecord K) :
    InBounds build (Recorder.initial build.size zero) where
  base_le := Int.le_refl 0
  apart := by simp [Recorder.initial, Slot.macroBuffer]
  end_le := by simp [Recorder.initial, Slot.macroBuffer]
  pointer := nofun
  playing := nofun

theorem InBounds.write (h : InBounds build s) (i : ℤ) (record : KeyRecord K) :
    InBounds build (s.write i record) where
  base_le := h.base_le
  apart := h.apart
  end_le := h.end_le
  pointer := by
    intro slot hslot
    cases slot <;> exact h.pointer _ hslot
  playing := h.playing

/-- The trimming loop stays between the base of the macro and its pointer. -/
theorem recordEnd_between (size : ℕ) (slot : Slot) (s : Recorder K) (macroPointer : ℤ)
    (h : 0 ≤ slot.direction * (macroPointer - slot.macroBuffer size)) :
    0 ≤ slot.direction *
        (dynamicMacroRecordEnd (slot.macroBuffer size) macroPointer slot.direction s -
          slot.macroBuffer size) ∧
      slot.direction *
        (dynamicMacroRecordEnd (slot.macroBuffer size) macroPointer slot.direction s -
          slot.macroBuffer size) ≤ slot.direction * (macroPointer - slot.macroBuffer size) := by
  apply BoundedLoop.run_invariant fun q => 0 ≤ slot.direction * (q - slot.macroBuffer size) ∧
    slot.direction * (q - slot.macroBuffer size) ≤
      slot.direction * (macroPointer - slot.macroBuffer size)
  · intro q hq htrims
    have hne : q ≠ slot.macroBuffer size := by
      simp only [trims, ne_eq, Bool.decide_and, Bool.and_eq_true, decide_eq_true_eq] at htrims
      exact htrims.1
    cases slot <;> simp only [Slot.direction, Slot.macroBuffer] at hq hne ⊢ <;> omega
  · exact ⟨h, Int.le_refl _⟩

theorem InBounds.finish (h : InBounds build s) :
    InBounds build (dynamicMacroStopRecording build.size s) := by
  rcases hid : s.macroId with _ | slot
  · rw [stopRecording_of_none hid]
    exact h
  · rw [stopRecording_of_some hid]
    have hpointer := h.pointer slot hid
    have := h.base_le
    have := h.apart
    have := h.end_le
    have hbetween := recordEnd_between build.size slot s s.macroPointer (by
      cases slot <;>
        simp only [PointerFits, Slot.direction, Slot.macroBuffer] at hpointer ⊢ <;> omega)
    refine ⟨?_, ?_, ?_, by simp, by simpa using h.playing⟩
    all_goals
      cases slot <;>
        simp only [Recorder.setEnd, PointerFits, Slot.direction, Slot.macroBuffer]
          at hpointer hbetween ⊢ <;>
        omega

/-- A playback of a macro that is not empty starts with its first record. -/
theorem InBounds.start (h : InBounds build s) (slot : Slot) :
    InBounds build
      (dynamicMacroPlay (slot.macroBuffer build.size) (s.endOf slot) slot.direction s) := by
  unfold dynamicMacroPlay
  split_ifs with hne
  · refine ⟨h.base_le, h.apart, h.end_le, ?_, ?_⟩
    · intro slot hslot
      cases slot <;> exact h.pointer _ hslot
    · intro p hp
      rcases List.mem_cons.mp hp with rfl | hp
      · have := h.base_le
        have := h.apart
        have := h.end_le
        cases slot with
        | one =>
          simp only [Slot.macroBuffer, Recorder.endOf] at hne
          refine Or.inl ⟨rfl, Int.le_refl 0, ?_, ?_⟩ <;>
            simp only [Slot.macroBuffer, Recorder.endOf] <;> omega
        | two =>
          simp only [Slot.macroBuffer, Recorder.endOf] at hne
          refine Or.inr ⟨rfl, ?_, ?_, ?_⟩ <;>
            simp only [Slot.macroBuffer, Recorder.endOf] <;> omega
      · exact h.playing p hp
  · exact h

theorem InBounds.recordKey (h : InBounds build s) {slot : Slot} (hid : s.macroId = some slot)
    (record : KeyRecord K) :
    InBounds build (dynamicMacroRecordKey (slot.macroBuffer build.size) (s.endOf slot.other)
      slot.direction record s) := by
  have hpointer := h.pointer slot hid
  unfold dynamicMacroRecordKey
  split_ifs with hlead hspace
  · exact h
  · have hwrite := h.write s.macroPointer record
    refine ⟨hwrite.base_le, hwrite.apart, hwrite.end_le, ?_, hwrite.playing⟩
    intro slot' hslot'
    obtain rfl := Option.some.inj (hid.symm.trans hslot')
    cases slot <;>
      simp only [PointerFits, Recorder.write, Slot.direction, Slot.other, Recorder.endOf]
        at hpointer hspace ⊢ <;>
      omega
  · exact h

theorem InBounds.record (h : InBounds build s) (slot : Slot) :
    InBounds build
      { dynamicMacroRecordStart (slot.macroBuffer build.size) s with macroId := some slot } := by
  have := h.base_le
  have := h.apart
  have := h.end_le
  refine ⟨h.base_le, h.apart, h.end_le, ?_, h.playing⟩
  intro slot' hslot'
  obtain rfl := Option.some.inj hslot'
  cases slot <;>
    simp only [PointerFits, dynamicMacroRecordStart, Slot.macroBuffer] <;> omega

theorem InBounds.key (h : InBounds build s) (keycode : UInt16) (record : KeyRecord K)
    (valid : Bool) : InBounds build (processDynamicMacro build keycode record valid s).1 := by
  unfold processDynamicMacro
  rcases hid : s.macroId with _ | slot
  · dsimp only
    split_ifs
    · exact h
    · exact h.record .one
    · exact h.record .two
    · exact h.start .one
    · exact h.start .two
    · exact h
  · dsimp only
    split_ifs
    · exact h.finish
    · exact h
    · exact h
    · cases slot <;> exact h.recordKey hid record
    · exact h

theorem InBounds.step (h : InBounds build s) (call : Call K) :
    InBounds build (DynamicMacro.step build s call) := by
  unfold DynamicMacro.step
  split
  · exact h.key _ _ _
  · exact h.finish
  · exact h.key _ _ _
  · exact h.write _ _
  · exact h.write _ _
  · exact h.write _ _
  · rename_i p playing hplaying
    refine ⟨h.base_le, h.apart, h.end_le, ?_, ?_⟩
    · intro slot hslot
      cases slot <;> exact h.pointer _ hslot
    · intro q hq
      rcases List.mem_append.mp hq with hq | hq
      · exact (h.playing p (by simp [hplaying])).next (by simpa using hq)
      · exact h.playing q (by simp [hplaying, hq])
  · exact h

/-- Whatever key events were recorded, the macros lie apart. -/
theorem inBounds_run (build : Build) (zero : KeyRecord K) (calls : List (Call K)) :
    InBounds build (run (DynamicMacro.step build) (Recorder.initial build.size zero) calls) :=
  run_invariant (InBounds build) (fun _ _ h _ => h.step _) (inBounds_initial build zero)
    (along_trivial _ _)

end InBounds

/-! ## Records -/

section Records

variable {build : Build} {s : Recorder K}

theorem playing_stopRecording (size : ℕ) :
    (dynamicMacroStopRecording size s).playing = s.playing := by
  unfold dynamicMacroStopRecording
  split <;> rfl

theorem playing_recordKey (macroBuffer macro2End direction : ℤ) (record : KeyRecord K) :
    (dynamicMacroRecordKey macroBuffer macro2End direction record s).playing = s.playing := by
  unfold dynamicMacroRecordKey
  split_ifs <;> rfl

/-- Every other key event starts no playback. -/
theorem playing_processDynamicMacro (build : Build) {keycode : UInt16} {record : KeyRecord K}
    (h : s.plays keycode record = none) (valid : Bool) :
    (processDynamicMacro build keycode record valid s).1.playing = s.playing := by
  unfold processDynamicMacro
  rcases hid : s.macroId with _ | slot
  · dsimp only
    split_ifs with hpressed hstart1 hstart2 hplay1 hplay2
    · rfl
    · rfl
    · rfl
    · simp [Recorder.plays, hid, hpressed, hplay1] at h
    · simp [Recorder.plays, hid, hpressed, hplay2, qkDynamicMacroPlay2, qkDynamicMacroPlay1] at h
    · rfl
  · dsimp only
    split_ifs
    · exact playing_stopRecording _
    · rfl
    · rfl
    · cases slot <;> exact playing_recordKey _ _ _ _
    · rfl

end Records

/-! ## The records left -/

/-- The records that are left, the one that is processed included. -/
def Playback.rounds (p : Playback) : ℕ :=
  (p.direction * (p.macroEnd - p.macroBuffer)).toNat

section Work

variable {build : Build} {s : Recorder K} {size : ℕ} {p q : Playback}

/-- The playback of a slot that is still running has its direction. -/
theorem Playback.Fits.direction_mem (h : p.Fits size) : p.direction ∈ [(1 : ℤ), -1] := by
  rcases h with ⟨hd, -⟩ | ⟨hd, -⟩ <;> rw [hd] <;> simp

theorem Playback.Fits.next_some (h : p.Fits size) (hnext : p.next = some q) :
    q.rounds < p.rounds ∧ q.direction = p.direction := by
  unfold Playback.next at hnext
  split_ifs at hnext with hend
  obtain rfl := Option.some.inj hnext
  refine ⟨?_, rfl⟩
  simp only [Playback.rounds]
  rcases h with ⟨hd, hlow, hlt, hhigh⟩ | ⟨hd, hlow, hlt, hhigh⟩ <;> rw [hd] at hend ⊢ <;> omega

/-- The macros that are played are in the buffer, and each one is played once. -/
structure Playing (build : Build) (s : Recorder K) : Prop extends InBounds build s where
  nodup : (s.playing.map Playback.direction).Nodup

/-- There are two directions only. -/
theorem Playing.length_le (h : Playing build s) : s.playing.length ≤ 2 := by
  have hsubset : s.playing.map Playback.direction ⊆ [(1 : ℤ), -1] := by
    intro d hd
    obtain ⟨p, hp, rfl⟩ := List.mem_map.mp hd
    exact (h.playing p hp).direction_mem
  have hlength := (h.nodup.subperm hsubset).length_le
  rwa [List.length_map] at hlength

theorem Playing.write (h : Playing build s) (i : ℤ) (record : KeyRecord K) :
    Playing build (s.write i record) :=
  ⟨h.toInBounds.write i record, h.nodup⟩

/-- The loops that run go on, or are over. -/
theorem Playing.setPlaying (h : Playing build s) {playing : List Playback}
    (hfits : ∀ p ∈ playing, p.Fits build.size)
    (hnodup : (playing.map Playback.direction).Nodup) :
    Playing build { s with playing := playing } := by
  refine ⟨⟨h.base_le, h.apart, h.end_le, ?_, hfits⟩, hnodup⟩
  intro slot hslot
  cases slot <;> exact h.pointer _ hslot

/-- A key event that plays no macro. -/
theorem Playing.key (h : Playing build s) {keycode : UInt16} {record : KeyRecord K}
    (hplays : s.plays keycode record = none) (valid : Bool) :
    Playing build (processDynamicMacro build keycode record valid s).1 := by
  refine ⟨h.toInBounds.key keycode record valid, ?_⟩
  rw [playing_processDynamicMacro build hplays]
  exact h.nodup

/-- A macro that is not being played is started. -/
theorem Playing.start (h : Playing build s) {slot : Slot}
    (hnew : ∀ p ∈ s.playing, p.direction ≠ slot.direction) :
    Playing build
      (dynamicMacroPlay (slot.macroBuffer build.size) (s.endOf slot) slot.direction s) := by
  refine ⟨h.toInBounds.start slot, ?_⟩
  rw [dynamicMacroPlay]
  split_ifs with hempty
  · refine List.nodup_cons.mpr ⟨?_, h.nodup⟩
    intro hmem
    obtain ⟨p, hp, heq⟩ := List.mem_map.mp hmem
    exact hnew p hp heq
  · exact h.nodup

end Work

/-! ## The end of a playback -/

section End

variable {build : Build} {fw : Firmware σ K} {t : Run σ K}

/-- After some turns no playback runs. -/
def Ends (build : Build) (fw : Firmware σ K) (t : Run σ K) : Prop :=
  ∃ n, (playback build fw n t).recorder.playing = []

/-- No macro is ever started while its playback runs. -/
def Calm (build : Build) (fw : Firmware σ K) (t : Run σ K) : Prop :=
  ∀ n, ¬ Recursive (playback build fw n t)

theorem playback_succ (h : t.recorder.playing ≠ []) (n : ℕ) :
    playback build fw (n + 1) t = playback build fw n (turn build fw t) :=
  BoundedLoop.run_succ_of_true (by simpa using h) n

theorem ends_of_turn (h : t.recorder.playing ≠ []) (hturn : Ends build fw (turn build fw t)) :
    Ends build fw t := by
  obtain ⟨n, hn⟩ := hturn
  exact ⟨n + 1, by rw [playback_succ h, hn]⟩

theorem Calm.turn (h : Calm build fw t) (hne : t.recorder.playing ≠ []) :
    Calm build fw (turn build fw t) := fun n => by
  rw [← playback_succ hne]
  exact h (n + 1)

/-- If all around the innermost playback ends once it has returned, the playback ends.  By
induction on the number of directions that are free, the records left, and the way of the record
that is processed. -/
theorem ends_of_resume (d : ℕ) : ∀ (p : Playback) (playing : List Playback) (current : Process σ K)
    (suspended : List (Shared σ K → Process σ K)) (s : Recorder K), s.playing = p :: playing →
      Playing build s → 2 ≤ s.playing.length + d → Calm build fw ⟨s, some current, suspended⟩ →
      (∀ (s' : Recorder K) (x : σ), s'.playing = playing → Playing build s' →
        Calm build fw (resume x suspended s') → Ends build fw (resume x suspended s')) →
      Ends build fw ⟨s, some current, suspended⟩ := by
  induction d using Nat.strong_induction_on with
  | _ d ihd =>
  intro p
  induction hrounds : p.rounds using Nat.strong_induction_on generalizing p with
  | _ rounds ihrounds =>
  intro playing current suspended
  induction current with
  | done shared a =>
    intro s hplaying hs hd hcalm hback
    have hne : s.playing ≠ [] := by rw [hplaying]; exact List.cons_ne_nil _ _
    have hwritten := hs.write p.macroBuffer shared.record
    have hcalm' := hcalm.turn hne
    refine ends_of_turn hne ?_
    have hturn : turn build fw ⟨s, some (.done shared a), suspended⟩ =
        returns fw p shared ⟨s, some (.done shared a), suspended⟩ := by
      simp only [turn, hplaying]
    have hfits : ∀ q ∈ p :: playing, q.Fits build.size := fun q hq =>
      hs.playing q (by rw [hplaying]; exact hq)
    have hnodup := hs.nodup
    rw [hplaying] at hnodup
    have htail : (s.write p.macroBuffer shared.record).playing.tail = playing := by
      change s.playing.tail = playing
      rw [hplaying, List.tail_cons]
    rw [hturn] at hcalm' ⊢
    simp only [returns, htail] at hcalm' ⊢
    cases hnext : p.next with
    | none =>
      -- the loop is over
      simp only [hnext] at hcalm' ⊢
      refine hback _ _ rfl ?_ hcalm'
      exact hwritten.setPlaying (fun q hq => hfits q (List.mem_cons_of_mem p hq))
        (List.nodup_cons.mp hnodup).2
    | some q =>
      -- the next record
      obtain ⟨hless, hdirection⟩ := (hfits p List.mem_cons_self).next_some hnext
      simp only [hnext, begin, List.head?_cons, Option.map_some] at hcalm' ⊢
      refine ihrounds q.rounds (hrounds ▸ hless) q rfl playing _ _ _ rfl ?_ ?_ hcalm' hback
      · refine hwritten.setPlaying (fun r hr => ?_) ?_
        · rcases List.mem_cons.mp hr with rfl | hr
          · exact (hfits p List.mem_cons_self).next hnext
          · exact hfits r (List.mem_cons_of_mem p hr)
        · rw [List.map_cons, hdirection]
          exact hnodup
      · rw [hplaying] at hd
        exact hd
  | call v shared k ih =>
    intro s hplaying hs hd hcalm hback
    have hne : s.playing ≠ [] := by rw [hplaying]; exact List.cons_ne_nil _ _
    have hwritten := hs.write p.macroBuffer shared.record
    have hplaying' : (s.write p.macroBuffer shared.record).playing = p :: playing := hplaying
    have hcalm' := hcalm.turn hne
    refine ends_of_turn hne ?_
    have hturn : turn build fw ⟨s, some (.call v shared k), suspended⟩ =
        visit build fw p v shared k ⟨s, some (.call v shared k), suspended⟩ := by
      simp only [turn, hplaying]
    rw [hturn] at hcalm' ⊢
    simp only [visit] at hcalm' ⊢
    cases hplays : (s.write p.macroBuffer shared.record).plays v.keycode
        (v.record.getD shared.record) with
    | none =>
      -- the record goes on at once
      simp only [hplays] at hcalm' ⊢
      have hsame := playing_processDynamicMacro build hplays v.valid
      refine ih _ _ (hsame.trans hplaying') (hwritten.key hplays v.valid) ?_ hcalm' hback
      rw [hsame]
      exact hd
    | some slot =>
      have hnew : ∀ q ∈ (s.write p.macroBuffer shared.record).playing,
          q.direction ≠ slot.direction := fun q hq heq => hcalm 0 ⟨slot, hplays, q, hq, heq⟩
      -- once a playback has returned the record goes on
      have hgoOn : ∀ (s' : Recorder K) (x : σ), s'.playing = p :: playing → Playing build s' →
          Calm build fw (resume x (k :: suspended) s') →
            Ends build fw (resume x (k :: suspended) s') := by
        intro s' x hplaying' hs' hcalm'
        simp only [resume, hplaying'] at hcalm' ⊢
        refine ih _ s' hplaying' hs' ?_ hcalm' hback
        rw [hplaying'] at *
        rw [hplaying] at hd
        exact hd
      simp only [hplays, play] at hcalm' ⊢
      have hstart := hwritten.start hnew
      by_cases hempty : slot.macroBuffer build.size ≠
          (s.write p.macroBuffer shared.record).endOf slot
      · simp only [dynamicMacroPlay, if_pos hempty, begin, List.head?_cons, Option.map_some]
          at hcalm' hstart ⊢
        have hlength := hstart.length_le
        rw [List.length_cons, hplaying'] at hlength
        rw [hplaying] at hd
        refine ihd (d - 1) ?_ _ _ _ _ _ rfl hstart ?_ hcalm' ?_
        · simp only [List.length_cons] at hlength hd
          omega
        · rw [List.length_cons, hplaying']
          omega
        · rw [hplaying']
          exact hgoOn
      · simp only [dynamicMacroPlay, if_neg hempty] at hcalm' hstart ⊢
        exact hgoOn _ _ hplaying' hstart hcalm'

end End

/-- A playback of either macro ends, whatever was recorded, if it never starts a macro whose
playback runs. -/
theorem playback_ends (build : Build) (fw : Firmware σ K) (zero : KeyRecord K)
    (calls : List (Call K)) (slot : Slot) (x : σ)
    (hidle : (run (step build) (Recorder.initial build.size zero) calls).playing = [])
    (hrec : ∀ n, ¬ Recursive (playback build fw n
      (play build fw slot x [] (run (step build) (Recorder.initial build.size zero) calls)))) :
    ∃ n, (playback build fw n
      (play build fw slot x []
        (run (step build) (Recorder.initial build.size zero) calls))).recorder.playing = [] := by
  have hbounds := inBounds_run build zero calls
  generalize run (step build) (Recorder.initial build.size zero) calls = s at *
  have hnew : ∀ p ∈ s.playing, p.direction ≠ slot.direction := by
    rw [hidle]
    nofun
  have hs : Playing build s := ⟨hbounds, by rw [hidle]; exact List.nodup_nil⟩
  have hstart := hs.start hnew
  -- nothing is suspended around the playback
  have hback : ∀ (s' : Recorder K) (x : σ), s'.playing = [] →
      Ends build fw (resume x [] s') := by
    intro s' x hdone
    refine ⟨0, ?_⟩
    simp only [playback, BoundedLoop.run_zero, resume, hdone]
  by_cases hempty : slot.macroBuffer build.size ≠ s.endOf slot
  · simp only [play, dynamicMacroPlay, if_pos hempty, begin, List.head?_cons, Option.map_some]
      at hrec hstart ⊢
    refine ends_of_resume 1 _ s.playing _ [] _ rfl hstart ?_ hrec fun s' x hdone _ _ =>
      hback s' x (hdone.trans hidle)
    rw [List.length_cons]
    omega
  · simp only [play, dynamicMacroPlay, if_neg hempty]
    exact hback s _ hidle

/-- A keyboard with one layer, on which nothing else happens. -/
def oneLayer (keymap : ℕ → UInt16) : Firmware Unit ℕ where
  enter := id
  processRecord shared :=
    .call ⟨keymap shared.record.event.key, none, true⟩ shared fun shared => .done shared ()
  leave := id

/-- The keys 1 to 5 are those of the dynamic macros. -/
def macroKeys : ℕ → UInt16
  | 1 => qkDynamicMacroRecordStart1
  | 2 => qkDynamicMacroRecordStart2
  | 3 => qkDynamicMacroRecordStop
  | 4 => qkDynamicMacroPlay1
  | 5 => qkDynamicMacroPlay2
  | _ => 4

/-- Keys are tapped one after the other. -/
def tapped (keys : List ℕ) : List (Call ℕ) :=
  keys.flatMap fun key =>
    [.key (macroKeys key) (keyRecord key 0 true) true,
      .key (macroKeys key) (keyRecord key 0 false) true]

/-- The first macro plays the second one. -/
theorem playback_ends_nested :
    ∃ n, (playback ⟨8, false⟩ (oneLayer macroKeys) n
      (play ⟨8, false⟩ (oneLayer macroKeys) .one () []
        (run (step ⟨8, false⟩) (Recorder.initial 8 (keyRecord 0 0 false))
          (tapped [2, 10, 3, 1, 5, 11, 3])))).recorder.playing = [] := by
  refine playback_ends ⟨8, false⟩ (oneLayer macroKeys) (keyRecord 0 0 false)
    (tapped [2, 10, 3, 1, 5, 11, 3]) .one () (by decide +kernel) fun n => ?_
  by_cases hn : n < 16
  · revert n
    decide +kernel
  · rw [playback, BoundedLoop.run_eq_of_done (Nat.not_lt.mp hn) (by decide +kernel)]
    decide +kernel

/-- The first macro holds a tap of its own play key. -/
structure Endless (t : Run Unit ℕ) : Prop where
  macroId : t.recorder.macroId = none
  macroEnd : t.recorder.macroEnd = 2
  pressed : t.recorder.macroBuffer 0 = keyRecord 4 0 true
  released : t.recorder.macroBuffer 1 = keyRecord 4 0 false
  /-- the press comes to {lit}`process_dynamic_macro`, returns, or the release comes there -/
  phase : ∃ playing,
    (t.recorder.playing = ⟨0, 2, 1⟩ :: playing ∧
      t.current = some ((oneLayer macroKeys).processRecord ⟨(), keyRecord 4 0 true, true⟩)) ∨
    (t.recorder.playing = ⟨0, 2, 1⟩ :: playing ∧
      t.current = some (.done ⟨(), keyRecord 4 0 true, true⟩ ())) ∨
    (t.recorder.playing = ⟨1, 2, 1⟩ :: playing ∧
      t.current = some ((oneLayer macroKeys).processRecord ⟨(), keyRecord 4 0 false, true⟩))

theorem Endless.turn {t : Run Unit ℕ} (h : Endless t) :
    Endless (turn ⟨8, false⟩ (oneLayer macroKeys) t) := by
  obtain ⟨playing, ⟨hplaying, hcurrent⟩ | ⟨hplaying, hcurrent⟩ | ⟨hplaying, hcurrent⟩⟩ := h.phase
  · have hturn : DynamicMacro.turn ⟨8, false⟩ (oneLayer macroKeys) t =
        ⟨t.recorder.write 0 (keyRecord 4 0 true),
          some (.done ⟨(), keyRecord 4 0 true, true⟩ ()), t.suspended⟩ := by
      simp [DynamicMacro.turn, hplaying, hcurrent, visit, oneLayer, Recorder.plays, h.macroId,
        keyRecord, processDynamicMacro, Recorder.write]
    rw [hturn]
    refine ⟨h.macroId, h.macroEnd, ?_, ?_, playing, Or.inr (Or.inl ⟨hplaying, rfl⟩)⟩
    · simp [Recorder.write]
    · simp [Recorder.write, h.released]
  · have hturn : DynamicMacro.turn ⟨8, false⟩ (oneLayer macroKeys) t =
        ⟨{ t.recorder.write 0 (keyRecord 4 0 true) with playing := ⟨1, 2, 1⟩ :: playing },
          some ((oneLayer macroKeys).processRecord ⟨(), keyRecord 4 0 false, true⟩),
          t.suspended⟩ := by
      simp [DynamicMacro.turn, hplaying, hcurrent, returns, Playback.next, begin, Recorder.write,
        h.released]
    rw [hturn]
    refine ⟨h.macroId, h.macroEnd, ?_, ?_, playing, Or.inr (Or.inr ⟨rfl, rfl⟩)⟩
    · simp [Recorder.write]
    · simp [Recorder.write, h.released]
  · have hturn : DynamicMacro.turn ⟨8, false⟩ (oneLayer macroKeys) t =
        ⟨{ t.recorder.write 1 (keyRecord 4 0 false) with
            playing := ⟨0, 2, 1⟩ :: ⟨1, 2, 1⟩ :: playing },
          some ((oneLayer macroKeys).processRecord ⟨(), keyRecord 4 0 true, true⟩),
          (fun shared => .done shared ()) :: t.suspended⟩ := by
      simp [DynamicMacro.turn, hplaying, hcurrent, visit, play, oneLayer, Recorder.plays,
        h.macroId, h.macroEnd, h.pressed, keyRecord, macroKeys, dynamicMacroPlay,
        Slot.macroBuffer, Slot.direction, Recorder.endOf, begin, Recorder.write]
    rw [hturn]
    refine ⟨h.macroId, h.macroEnd, ?_, ?_, ⟨1, 2, 1⟩ :: playing, Or.inl ⟨rfl, rfl⟩⟩
    · simp [Recorder.write, h.pressed]
    · simp [Recorder.write]

/-- A macro that plays itself never ends. -/
theorem not_ends_selfPlaying :
    ¬ ∀ (build : Build) (fw : Firmware Unit ℕ) (zero : KeyRecord ℕ) (calls : List (Call ℕ))
      (slot : Slot) (x : Unit), build.noNesting = false →
        (run (step build) (Recorder.initial build.size zero) calls).playing = [] →
          ∃ n, (playback build fw n (play build fw slot x []
            (run (step build) (Recorder.initial build.size zero) calls))).recorder.playing =
              [] := by
  intro h
  obtain ⟨n, hn⟩ := h ⟨8, false⟩ (oneLayer macroKeys) (keyRecord 0 0 false) (tapped [1, 4, 3])
    .one () rfl (by decide +kernel)
  have hendless : Endless (playback ⟨8, false⟩ (oneLayer macroKeys) n
      (play ⟨8, false⟩ (oneLayer macroKeys) .one () []
        (run (step ⟨8, false⟩) (Recorder.initial 8 (keyRecord 0 0 false)) (tapped [1, 4, 3])))) := by
    apply BoundedLoop.run_invariant Endless
    · exact fun _ ht _ => ht.turn
    · exact ⟨by decide +kernel, by decide +kernel, by decide +kernel, by decide +kernel, [],
        Or.inl ⟨by decide +kernel, rfl⟩⟩
  obtain ⟨playing, ⟨hplaying, -⟩ | ⟨hplaying, -⟩ | ⟨hplaying, -⟩⟩ := hendless.phase
  · exact absurd (hplaying.symm.trans hn) (List.cons_ne_nil _ _)
  · exact absurd (hplaying.symm.trans hn) (List.cons_ne_nil _ _)
  · exact absurd (hplaying.symm.trans hn) (List.cons_ne_nil _ _)

end DynamicMacro
end VialQmk
