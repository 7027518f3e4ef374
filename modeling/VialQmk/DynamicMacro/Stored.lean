import VialQmk.DynamicMacro.Recorder
import VialQmk.Library.Runs
import Mathlib.Data.List.DropRight
import Mathlib.Tactic.Ring

/-!
# Dynamic macros - what is stored

A ledger notes which key events were seen while a recording ran, and what should be left
of them when it ends: without the leading releases, cut off where the space that the other
macro leaves runs out, and without the trailing presses.  The buffer is compared with it
after every call.

Main results:

- Definition {lit}`Ledger`: the events of the recording, and of the two macros.
- Definition {lit}`Sound`: the buffer holds the macros of the ledger, apart from each other.
- Theorem {lit}`recordEnd_eq`: the trimming loop ends where the trailing presses begin.
- Theorem {lit}`macrosSound`: along every run in which the played records are left as they
  are, the buffer stays sound.
-/

namespace VialQmk
namespace DynamicMacro

open StateMachine Tapping

variable {K : Type}

/-! ## The ledger -/

/-- What the buffer takes of a recording. -/
def kept (free : ℕ) (events : List (KeyRecord K)) : List (KeyRecord K) :=
  (events.dropWhile fun r => !r.event.pressed).take free

/-- What is left of a recording at its end. -/
def tidy (free : ℕ) (events : List (KeyRecord K)) : List (KeyRecord K) :=
  (kept free events).rdropWhile fun r => r.event.pressed

/-- The events of the recording that runs, and those of the macros. -/
structure Ledger (K : Type) where
  recording : Option (Slot × List (KeyRecord K))
  stored : Slot → List (KeyRecord K)

def Ledger.initial : Ledger K where
  recording := none
  stored := fun _ => []

/-- The space that the other macro leaves. -/
def Ledger.free (size : ℕ) (l : Ledger K) (slot : Slot) : ℕ :=
  size - (l.stored slot.other).length

/-- The recording ends. -/
def Ledger.finish (size : ℕ) (l : Ledger K) : Ledger K :=
  match l.recording with
  | none => l
  | some (slot, events) =>
    { recording := none
      stored := Function.update l.stored slot (tidy (l.free size slot) events) }

/-- A key event starts a recording, ends it, or is part of it. -/
def Ledger.see (build : Build) (keycode : UInt16) (record : KeyRecord K) (valid : Bool)
    (l : Ledger K) : Ledger K :=
  match l.recording with
  | none =>
    if ¬ record.event.pressed then
      if keycode = qkDynamicMacroRecordStart1 then { l with recording := some (.one, []) }
      else if keycode = qkDynamicMacroRecordStart2 then { l with recording := some (.two, []) }
      else l
    else l
  | some (slot, events) =>
    if keycode = qkDynamicMacroRecordStart1 ∨ keycode = qkDynamicMacroRecordStart2 ∨
        keycode = qkDynamicMacroRecordStop then
      if xor record.event.pressed (keycode ≠ qkDynamicMacroRecordStop) then l.finish build.size
      else l
    else if build.noNesting ∧ (keycode = qkDynamicMacroPlay1 ∨ keycode = qkDynamicMacroPlay2) then
      l
    else if valid then { l with recording := some (slot, events ++ [record]) }
    else l

/-- What a call means for the ledger. -/
def Ledger.follow (build : Build) (s : Recorder K) (call : Call K) (l : Ledger K) : Ledger K :=
  match call, s.playing with
  | .key keycode record valid, _ => l.see build keycode record valid
  | .replay keycode valid, p :: _ => l.see build keycode (s.macroBuffer p.macroBuffer) valid
  | .stopRecording, _ => l.finish build.size
  | _, _ => l

/-- The recorder with its ledger. -/
def tracked (build : Build) (t : Recorder K × Ledger K) (call : Call K) :
    Recorder K × Ledger K :=
  (step build t.1 call, t.2.follow build t.1 call)

/-! ## Soundness -/

/-- The macro of a slot lies in these cells and ends there. -/
structure Stores (size : ℕ) (cells : ℤ → KeyRecord K) (slot : Slot) (macroEnd : ℤ)
    (events : List (KeyRecord K)) : Prop where
  ends : macroEnd = slot.macroBuffer size + slot.direction * events.length
  cell : ∀ (i : ℕ) (h : i < events.length),
    cells (slot.macroBuffer size + slot.direction * i) = events[i]

/-- The elements a macro takes up. -/
def Recorder.Occupied (size : ℕ) (s : Recorder K) : Slot → ℤ → Prop
  | .one, i => 0 ≤ i ∧ i < s.macroEnd
  | .two, i => s.rMacroEnd < i ∧ i < size

/-- The macros lie in the buffer apart from each other, nothing was written outside of it,
and a macro that is not being recorded is the one of the ledger. -/
structure Sound (build : Build) (s : Recorder K) (l : Ledger K) : Prop where
  base_le : 0 ≤ s.macroEnd
  apart : s.macroEnd ≤ s.rMacroEnd + 1
  end_le : s.rMacroEnd + 1 ≤ build.size
  inside : ∀ i ∈ s.writes, 0 ≤ i ∧ i < build.size
  stored : ∀ slot, s.macroId ≠ some slot →
    Stores build.size s.macroBuffer slot (s.endOf slot) (l.stored slot)

/-- While one macro is recorded, the elements of the other one stay as they are. -/
def KeepsOther (build : Build) (s s' : Recorder K) : Prop :=
  ∀ slot, s.macroId = some slot → s'.endOf slot.other = s.endOf slot.other ∧
    ∀ i, s.Occupied build.size slot.other i → s'.macroBuffer i = s.macroBuffer i

/-- What is asked of each call. -/
def SoundStep (build : Build) (t : Recorder K × Ledger K) (call : Call K) : Prop :=
  Sound build (tracked build t call).1 (tracked build t call).2 ∧
    KeepsOther build t.1 (tracked build t call).1

/-- The record that is played is left as it is. -/
def LeavesPlayed (t : Recorder K × Ledger K) (call : Call K) : Prop :=
  ∀ p ∈ t.1.playing.head?,
    call.rewritten (t.1.macroBuffer p.macroBuffer) = t.1.macroBuffer p.macroBuffer

instance (t : Recorder ℕ × Ledger ℕ) (call : Call ℕ) : Decidable (LeavesPlayed t call) :=
  inferInstanceAs (Decidable (∀ p ∈ t.1.playing.head?, _ = _))

/-! ## What is kept of a recording -/

theorem length_kept_le (free : ℕ) (events : List (KeyRecord K)) :
    (kept free events).length ≤ free := by
  simp [kept]

@[simp]
theorem kept_nil (free : ℕ) : kept free ([] : List (KeyRecord K)) = [] := by
  simp [kept]

/-- One more event: a leading release is ignored, and so is what has no space. -/
theorem kept_append (free : ℕ) (events : List (KeyRecord K)) (record : KeyRecord K) :
    kept free (events ++ [record]) =
      if ¬ record.event.pressed ∧ kept free events = [] then kept free events
      else if (kept free events).length < free then kept free events ++ [record]
      else kept free events := by
  unfold kept
  rw [List.dropWhile_append]
  by_cases hempty : events.dropWhile (fun r => !r.event.pressed) = []
  · rw [hempty]
    cases hp : record.event.pressed
    · simp [List.dropWhile, hp]
    · cases free <;> simp [List.dropWhile, hp]
  · have hne : (events.dropWhile fun r => !r.event.pressed).isEmpty = false := by
      simpa using hempty
    rw [hne]
    generalize events.dropWhile (fun r => !r.event.pressed) = kept at hempty
    have hpos : 0 < kept.length := List.length_pos_iff.mpr hempty
    rw [if_neg Bool.false_ne_true]
    by_cases hfree : free = 0
    · simp [hfree]
    · have htake : kept.take free ≠ [] := by
        simp [List.take_eq_nil_iff, hfree, hempty]
      rw [if_neg fun h => htake h.2]
      by_cases hlt : kept.length < free
      · have hlen : (kept ++ [record]).length ≤ free := by
          rw [List.length_append, List.length_singleton]
          exact hlt
        rw [List.take_of_length_le (Nat.le_of_lt hlt), if_pos hlt, List.take_of_length_le hlen]
      · rw [if_neg (by simp; omega), List.take_append_of_le_length (by omega)]

/-! ## Cells of a macro -/

@[simp]
theorem Slot.other_other (slot : Slot) : slot.other.other = slot := by
  cases slot <;> rfl

theorem Slot.other_ne (slot : Slot) : slot.other ≠ slot := by
  cases slot <;> nofun

theorem Slot.eq_other {slot slot' : Slot} (h : slot' ≠ slot) : slot' = slot.other := by
  cases slot <;> cases slot' <;> first | rfl | exact absurd rfl h

section Stores

variable {size : ℕ} {cells cells' : ℤ → KeyRecord K} {slot : Slot} {macroEnd : ℤ}
  {events : List (KeyRecord K)} {record : KeyRecord K}

theorem Stores.nil (size : ℕ) (cells : ℤ → KeyRecord K) (slot : Slot) :
    Stores size cells slot (slot.macroBuffer size) [] :=
  ⟨by simp, nofun⟩

theorem Stores.congr (h : Stores size cells slot macroEnd events)
    (hcells : ∀ i : ℕ, i < events.length → cells' (slot.macroBuffer size + slot.direction * i) =
      cells (slot.macroBuffer size + slot.direction * i)) :
    Stores size cells' slot macroEnd events :=
  ⟨h.ends, fun i hi => (hcells i hi).trans (h.cell i hi)⟩

/-- Different events of a macro lie in different cells. -/
theorem Slot.cell_injective (slot : Slot) {i j : ℕ}
    (h : slot.macroBuffer size + slot.direction * i = slot.macroBuffer size + slot.direction * j) :
    i = j := by
  cases slot <;> simp only [Slot.direction, Slot.macroBuffer] at h <;> omega

/-- The record behind the macro is added to it. -/
theorem Stores.snoc (h : Stores size cells slot macroEnd events) (record : KeyRecord K) :
    Stores size (Function.update cells macroEnd record) slot (macroEnd + slot.direction)
      (events ++ [record]) := by
  refine ⟨?_, fun i hi => ?_⟩
  · rw [h.ends, List.length_append, List.length_singleton]
    push_cast
    ring
  · rw [List.length_append, List.length_singleton] at hi
    rcases Nat.lt_succ_iff_lt_or_eq.mp hi with hlt | rfl
    · have hne : slot.macroBuffer size + slot.direction * (i : ℤ) ≠ macroEnd := by
        rw [h.ends]
        intro heq
        have := slot.cell_injective heq
        omega
      rw [Function.update_of_ne hne, h.cell i hlt, List.getElem_append_left hlt]
    · rw [← h.ends, Function.update_self, List.getElem_append_right (Nat.le_refl _)]
      simp

/-- The last record of a macro, and the macro without it. -/
theorem Stores.init (h : Stores size cells slot macroEnd (events ++ [record])) :
    Stores size cells slot (macroEnd - slot.direction) events ∧
      cells (macroEnd - slot.direction) = record := by
  have hends : macroEnd - slot.direction =
      slot.macroBuffer size + slot.direction * events.length := by
    rw [h.ends, List.length_append, List.length_singleton]
    push_cast
    ring
  have hlast : events.length < (events ++ [record]).length := by simp
  refine ⟨⟨hends, fun i hi => ?_⟩, ?_⟩
  · rw [h.cell i (by simp; omega), List.getElem_append_left hi]
  · rw [hends, h.cell events.length hlast]
    simp

theorem Stores.of_prefix {first : List (KeyRecord K)}
    (h : Stores size cells slot macroEnd events) (hfirst : first <+: events) :
    Stores size cells slot (slot.macroBuffer size + slot.direction * first.length) first :=
  ⟨rfl, fun i hi => (h.cell i (hi.trans_le hfirst.length_le)).trans (hfirst.getElem hi).symm⟩

/-- The trimming loop ends where the trailing presses begin. -/
theorem recordEnd_eq {s : Recorder K} (h : Stores size s.macroBuffer slot macroEnd events) :
    dynamicMacroRecordEnd (slot.macroBuffer size) macroEnd slot.direction s =
      slot.macroBuffer size +
        slot.direction * (events.rdropWhile fun r => r.event.pressed).length := by
  have hrounds : (slot.direction * (macroEnd - slot.macroBuffer size)).toNat = events.length := by
    rw [h.ends]
    cases slot <;> simp [Slot.direction]
  rw [dynamicMacroRecordEnd, hrounds]
  clear hrounds
  induction events using List.reverseRecOn generalizing macroEnd with
  | nil => simpa using h.ends
  | append_singleton events record ih =>
    obtain ⟨hinit, hlast⟩ := h.init
    have hne : macroEnd ≠ slot.macroBuffer size := by
      rw [h.ends]
      cases slot <;> simp [Slot.direction] <;> omega
    rw [List.length_append, List.length_singleton]
    cases hp : record.event.pressed
    · have hstop : trims (slot.macroBuffer size) slot.direction s macroEnd = false := by
        simp [trims, hlast, hp]
      rw [BoundedLoop.run_of_false hstop, List.rdropWhile_concat_neg _ _ _ (by simp [hp])]
      exact h.ends
    · have hgo : trims (slot.macroBuffer size) slot.direction s macroEnd = true := by
        simp [trims, hlast, hp, hne]
      rw [BoundedLoop.run_succ_of_true hgo, List.rdropWhile_concat_pos _ _ _ (by simp [hp])]
      exact ih hinit

end Stores

/-! ## The code for one slot -/

section Slots

variable (s : Recorder K) (build : Build)

@[simp]
theorem endOf_setEnd (macroEnd : ℤ) (slot : Slot) :
    (s.setEnd macroEnd slot).endOf slot = macroEnd := by
  cases slot <;> rfl

@[simp]
theorem endOf_setEnd_other (macroEnd : ℤ) (slot : Slot) :
    (s.setEnd macroEnd slot).endOf slot.other = s.endOf slot.other := by
  cases slot <;> rfl

@[simp]
theorem macroBuffer_setEnd (macroEnd : ℤ) (slot : Slot) :
    (s.setEnd macroEnd slot).macroBuffer = s.macroBuffer := by
  cases slot <;> rfl

@[simp]
theorem writes_setEnd (macroEnd : ℤ) (slot : Slot) :
    (s.setEnd macroEnd slot).writes = s.writes := by
  cases slot <;> rfl

@[simp]
theorem macroId_setEnd (macroEnd : ℤ) (slot : Slot) :
    (s.setEnd macroEnd slot).macroId = s.macroId := by
  cases slot <;> rfl

@[simp]
theorem playing_setEnd (macroEnd : ℤ) (slot : Slot) :
    (s.setEnd macroEnd slot).playing = s.playing := by
  cases slot <;> rfl

variable {s}

theorem stopRecording_of_none (h : s.macroId = none) (size : ℕ) :
    dynamicMacroStopRecording size s = s := by
  cases s
  cases h
  rfl

theorem stopRecording_of_some {slot : Slot} (h : s.macroId = some slot) (size : ℕ) :
    dynamicMacroStopRecording size s =
      { s with macroId := none }.setEnd
        (dynamicMacroRecordEnd (slot.macroBuffer size) s.macroPointer slot.direction s) slot := by
  cases slot <;> simp only [dynamicMacroStopRecording, h] <;> rfl

end Slots

/-- The cursor of a playback is an element of the buffer, and its loop ends. -/
def Playback.Fits (size : ℕ) (p : Playback) : Prop :=
  (p.direction = 1 ∧ 0 ≤ p.macroBuffer ∧ p.macroBuffer < p.macroEnd ∧ p.macroEnd ≤ size) ∨
    (p.direction = -1 ∧ -1 ≤ p.macroEnd ∧ p.macroEnd < p.macroBuffer ∧ p.macroBuffer < size)

theorem Playback.Fits.next {size : ℕ} {p q : Playback} (h : p.Fits size) (hq : p.next = some q) :
    q.Fits size := by
  unfold Playback.next at hq
  split_ifs at hq with hend
  obtain rfl := Option.some.inj hq
  rcases h with ⟨hd, hlow, hlt, hhigh⟩ | ⟨hd, hlow, hlt, hhigh⟩
  · rw [hd] at hend
    refine Or.inl ⟨hd, ?_, ?_, hhigh⟩ <;> dsimp only <;> omega
  · rw [hd] at hend
    refine Or.inr ⟨hd, hlow, ?_, ?_⟩ <;> dsimp only <;> omega

/-- The cursor of a playback is inside the buffer. -/
theorem Playback.Fits.cursor {size : ℕ} {p : Playback} (h : p.Fits size) :
    0 ≤ p.macroBuffer ∧ p.macroBuffer < size := by
  unfold Playback.Fits at h
  omega

/-! ## The buffer follows the ledger -/

/-- The state and the ledger belong together. -/
structure Refines (build : Build) (s : Recorder K) (l : Ledger K) : Prop
    extends Sound build s l where
  macroId : s.macroId = l.recording.map Prod.fst
  recording : ∀ slot events, l.recording = some (slot, events) →
    Stores build.size s.macroBuffer slot s.macroPointer (kept (l.free build.size slot) events)
  playing : ∀ p ∈ s.playing, p.Fits build.size

section Refines

variable {build : Build} {s : Recorder K} {l : Ledger K} {slot : Slot}
  {events : List (KeyRecord K)}

theorem refines_initial (build : Build) (zero : KeyRecord K) :
    Refines build (Recorder.initial build.size zero) Ledger.initial where
  base_le := Int.le_refl 0
  apart := by simp [Recorder.initial, Slot.macroBuffer]
  end_le := by simp [Recorder.initial, Slot.macroBuffer]
  inside := nofun
  stored := by
    intro slot _
    cases slot <;> exact Stores.nil _ _ _
  macroId := rfl
  recording := nofun
  playing := nofun

/-- The other macro is stored. -/
theorem Refines.other (h : Refines build s l) (hrec : l.recording = some (slot, events)) :
    Stores build.size s.macroBuffer slot.other (s.endOf slot.other) (l.stored slot.other) := by
  apply h.stored
  rw [h.macroId, hrec]
  exact fun heq => slot.other_ne (Option.some.inj heq).symm

/-- The cells of a stored macro are the elements it takes up. -/
theorem Refines.occupied (h : Refines build s l)
    (hstored : Stores build.size s.macroBuffer slot (s.endOf slot) events) {i : ℕ}
    (hi : i < events.length) :
    s.Occupied build.size slot (slot.macroBuffer build.size + slot.direction * i) := by
  have hends := hstored.ends
  have := h.base_le
  have := h.apart
  have := h.end_le
  cases slot <;>
    simp only [Recorder.Occupied, Recorder.endOf, Slot.macroBuffer, Slot.direction] at hends ⊢ <;>
    omega

/-- The pointer of a recording that has space left is a free element. -/
theorem Refines.pointer (h : Refines build s l) (hrec : l.recording = some (slot, events))
    (hspace : (kept (l.free build.size slot) events).length < l.free build.size slot) :
    0 ≤ s.macroPointer ∧ s.macroPointer < build.size ∧
      ¬ s.Occupied build.size slot.other s.macroPointer := by
  have hends := (h.recording slot events hrec).ends
  have hother := (h.other hrec).ends
  have := h.base_le
  have := h.apart
  have := h.end_le
  unfold Ledger.free at hspace hends
  cases slot <;>
    simp only [Recorder.Occupied, Recorder.endOf, Slot.macroBuffer, Slot.direction, Slot.other]
      at hends hother hspace ⊢ <;>
    omega

/-- The test of {lit}`dynamic_macro_record_key` is whether there is space left. -/
theorem Refines.space_iff (h : Refines build s l) (hrec : l.recording = some (slot, events)) :
    s.macroPointer - slot.direction ≠ s.endOf slot.other ↔
      (kept (l.free build.size slot) events).length < l.free build.size slot := by
  have hle := length_kept_le (l.free build.size slot) events
  have hends := (h.recording slot events hrec).ends
  have hother := (h.other hrec).ends
  have := h.base_le
  have := h.apart
  have := h.end_le
  unfold Ledger.free at hle hends ⊢
  cases slot <;>
    simp only [Recorder.endOf, Slot.macroBuffer, Slot.direction, Slot.other]
      at hends hother hle ⊢ <;>
    omega

/-- Space left means that the two macros fit. -/
theorem Refines.free_le (h : Refines build s l) (hrec : l.recording = some (slot, events)) :
    (l.stored slot.other).length + l.free build.size slot = build.size := by
  have hother := (h.other hrec).ends
  have := h.base_le
  have := h.apart
  have := h.end_le
  unfold Ledger.free
  cases slot <;>
    simp only [Recorder.endOf, Slot.macroBuffer, Slot.direction, Slot.other] at hother ⊢ <;>
    omega

/-! ### One step -/

theorem KeepsOther.refl (build : Build) (s : Recorder K) : KeepsOther build s s :=
  fun _ _ => ⟨rfl, fun _ _ => rfl⟩

/-- No macro is recorded, so there is no other one. -/
theorem keepsOther_of_none {s' : Recorder K} (h : s.macroId = none) : KeepsOther build s s' := by
  intro slot hslot
  rw [h] at hslot
  exact absurd hslot nofun

/-- A recording starts at the base of its macro. -/
theorem Refines.start (h : Refines build s l) (hnone : l.recording = none) (slot : Slot) :
    Refines build
      { dynamicMacroRecordStart (slot.macroBuffer build.size) s with macroId := some slot }
      { l with recording := some (slot, []) } where
  base_le := h.base_le
  apart := h.apart
  end_le := h.end_le
  inside := h.inside
  stored := by
    intro slot' _
    have hid : s.macroId ≠ some slot' := by
      rw [h.macroId, hnone]
      nofun
    cases slot' <;> exact h.stored _ hid
  macroId := rfl
  recording := by
    intro slot' events' heq
    obtain ⟨rfl, rfl⟩ := Prod.mk.inj (Option.some.inj heq)
    rw [kept_nil]
    exact Stores.nil _ _ _
  playing := h.playing

/-- A playback starts with the first record of its macro. -/
theorem Refines.play (h : Refines build s l) {macroBuffer macroEnd direction : ℤ}
    (hfits : macroBuffer ≠ macroEnd →
      (⟨macroBuffer, macroEnd, direction⟩ : Playback).Fits build.size) :
    Refines build (dynamicMacroPlay macroBuffer macroEnd direction s) l := by
  unfold dynamicMacroPlay
  split_ifs with hne
  · refine ⟨⟨h.base_le, h.apart, h.end_le, h.inside, ?_⟩, h.macroId, h.recording, ?_⟩
    · intro slot hslot
      cases slot <;> exact h.stored _ hslot
    · intro p hp
      rcases List.mem_cons.mp hp with rfl | hp
      · exact hfits hne
      · exact h.playing p hp
  · exact h

/-- The recording ends. -/
theorem Refines.finish (h : Refines build s l) :
    Refines build (dynamicMacroStopRecording build.size s) (l.finish build.size) ∧
      KeepsOther build s (dynamicMacroStopRecording build.size s) := by
  unfold Ledger.finish
  split
  · rename_i hrec
    have hid : s.macroId = none := by rw [h.macroId, hrec]; rfl
    rw [stopRecording_of_none hid]
    exact ⟨h, KeepsOther.refl build s⟩
  · rename_i slot events hrec
    have hid : s.macroId = some slot := by rw [h.macroId, hrec]; rfl
    have hstored := h.recording slot events hrec
    have hfree := h.free_le hrec
    have hother := h.other hrec
    have hprefix : tidy (l.free build.size slot) events <+:
        kept (l.free build.size slot) events := List.rdropWhile_prefix _ _
    have hlen := hprefix.length_le.trans (length_kept_le _ _)
    have hends := hother.ends
    have := h.base_le
    have := h.end_le
    rw [stopRecording_of_some hid, recordEnd_eq hstored]
    refine ⟨⟨⟨?_, ?_, ?_, by simpa using h.inside, ?_⟩, by simp, nofun, by simpa using h.playing⟩,
      ?_⟩
    iterate 3
      cases slot <;>
        simp only [Recorder.setEnd, Recorder.endOf, Slot.macroBuffer, Slot.direction, Slot.other,
          tidy] at hends hfree hlen ⊢ <;>
        omega
    · intro slot' _
      by_cases heq : slot' = slot
      · subst heq
        simp only [endOf_setEnd, macroBuffer_setEnd, Function.update_self]
        exact hstored.of_prefix hprefix
      · obtain rfl := Slot.eq_other heq
        simp only [endOf_setEnd_other, macroBuffer_setEnd, Function.update_of_ne heq]
        cases slot <;> exact hother
    · intro slot' hslot'
      obtain rfl := Option.some.inj (hid.symm.trans hslot')
      rw [endOf_setEnd_other, macroBuffer_setEnd]
      exact ⟨by cases slot <;> rfl, fun _ _ => rfl⟩

/-- A key event is recorded, if it is not a leading release and there is space. -/
theorem Refines.record (h : Refines build s l) (hrec : l.recording = some (slot, events))
    (record : KeyRecord K) :
    Refines build
        (dynamicMacroRecordKey (slot.macroBuffer build.size) (s.endOf slot.other) slot.direction
          record s)
        { l with recording := some (slot, events ++ [record]) } ∧
      KeepsOther build s
        (dynamicMacroRecordKey (slot.macroBuffer build.size) (s.endOf slot.other) slot.direction
          record s) := by
  have hid : s.macroId = some slot := by rw [h.macroId, hrec]; rfl
  have hstored := h.recording slot events hrec
  have hempty : s.macroPointer = slot.macroBuffer build.size ↔
      kept (l.free build.size slot) events = [] := by
    rw [hstored.ends, ← List.length_eq_zero_iff]
    cases slot <;> simp [Slot.direction]
  have hkept := kept_append (l.free build.size slot) events record
  -- the ledger changes, and the buffer takes the same events as before
  have hsame (heq : kept (l.free build.size slot) (events ++ [record]) =
      kept (l.free build.size slot) events) :
      Refines build s { l with recording := some (slot, events ++ [record]) } ∧
        KeepsOther build s s := by
    refine ⟨⟨⟨h.base_le, h.apart, h.end_le, h.inside, h.stored⟩, hid, ?_, h.playing⟩,
      KeepsOther.refl build s⟩
    intro slot' events' heq'
    obtain ⟨rfl, rfl⟩ := Prod.mk.inj (Option.some.inj heq')
    exact heq ▸ hstored
  unfold dynamicMacroRecordKey
  split_ifs with hlead hspace
  · rw [if_pos ⟨hlead.1, hempty.mp hlead.2⟩] at hkept
    exact hsame hkept
  · rw [if_neg fun hk => hlead ⟨hk.1, hempty.mpr hk.2⟩] at hkept
    rw [h.space_iff hrec] at hspace
    rw [if_pos hspace] at hkept
    obtain ⟨hlow, hhigh, hfree⟩ := h.pointer hrec hspace
    have hother (i : ℤ) (hi : s.Occupied build.size slot.other i) :
        Function.update s.macroBuffer s.macroPointer record i = s.macroBuffer i :=
      Function.update_of_ne (by rintro rfl; exact hfree hi) _ _
    refine ⟨⟨⟨h.base_le, h.apart, h.end_le, ?_, ?_⟩, hid, ?_, h.playing⟩, ?_⟩
    · intro i hi
      rcases List.mem_cons.mp hi with rfl | hi
      · exact ⟨hlow, hhigh⟩
      · exact h.inside i hi
    · intro slot' hslot'
      have hne : slot' ≠ slot := by
        rintro rfl
        exact hslot' hid
      obtain rfl := Slot.eq_other hne
      have hold := h.other hrec
      have hnew := hold.congr fun i hi => hother _ (h.occupied hold hi)
      cases slot <;> exact hnew
    · intro slot' events' heq
      obtain ⟨rfl, rfl⟩ := Prod.mk.inj (Option.some.inj heq)
      have hnew := hstored.snoc record
      rw [← hkept] at hnew
      exact hnew
    · intro slot' hslot'
      obtain rfl := Option.some.inj (hid.symm.trans hslot')
      exact ⟨by cases slot <;> rfl, hother⟩
  · rw [if_neg fun hk => hlead ⟨hk.1, hempty.mpr hk.2⟩,
      if_neg fun hk => hspace ((h.space_iff hrec).mpr hk)] at hkept
    exact hsame hkept

/-- One key event. -/
theorem Refines.see (h : Refines build s l) (keycode : UInt16) (record : KeyRecord K)
    (valid : Bool) :
    Refines build (processDynamicMacro build keycode record valid s).1
        (l.see build keycode record valid) ∧
      KeepsOther build s (processDynamicMacro build keycode record valid s).1 := by
  rcases hrec : l.recording with _ | ⟨slot, events⟩
  · have hid : s.macroId = none := by rw [h.macroId, hrec]; rfl
    refine ⟨?_, keepsOther_of_none hid⟩
    simp only [processDynamicMacro, Ledger.see, hid, hrec]
    have := h.base_le
    have := h.apart
    have := h.end_le
    split_ifs
    · exact h
    · exact h.start hrec .one
    · exact h.start hrec .two
    · refine h.play fun hne => Or.inl ⟨rfl, Int.le_refl 0, ?_, ?_⟩
      · change (0 : ℤ) ≠ s.macroEnd at hne
        change (0 : ℤ) < s.macroEnd
        omega
      · change s.macroEnd ≤ build.size
        omega
    · refine h.play fun hne => Or.inr ⟨rfl, ?_, ?_, ?_⟩
      · change -1 ≤ s.rMacroEnd
        omega
      · change (build.size : ℤ) - 1 ≠ s.rMacroEnd at hne
        change s.rMacroEnd < build.size - 1
        omega
      · change (build.size : ℤ) - 1 < build.size
        omega
    · exact h
  · have hid : s.macroId = some slot := by rw [h.macroId, hrec]; rfl
    simp only [processDynamicMacro, Ledger.see, hid, hrec]
    split_ifs
    · exact h.finish
    · exact ⟨h, KeepsOther.refl build s⟩
    · exact ⟨h, KeepsOther.refl build s⟩
    · cases slot <;> exact h.record hrec record
    · exact ⟨h, KeepsOther.refl build s⟩

/-- One call. -/
theorem Refines.step (h : Refines build s l) {call : Call K} (hleaves : LeavesPlayed (s, l) call) :
    Refines build (step build s call) (l.follow build s call) ∧
      KeepsOther build s (DynamicMacro.step build s call) := by
  have hidle : Refines build s l ∧ KeepsOther build s s := ⟨h, KeepsOther.refl build s⟩
  -- a record that is left as it is was written, but not changed
  have hwrite {p : Playback} {playing : List Playback} (hp : s.playing = p :: playing)
      {record : KeyRecord K} (hsame : record = s.macroBuffer p.macroBuffer) :
      Refines build (s.write p.macroBuffer record) l ∧
        KeepsOther build s (s.write p.macroBuffer record) := by
    have hcells : (s.write p.macroBuffer record).macroBuffer = s.macroBuffer := by
      rw [hsame]
      exact Function.update_eq_self _ _
    have hcursor := (h.playing p (by simp [hp])).cursor
    refine ⟨⟨⟨h.base_le, h.apart, h.end_le, ?_, ?_⟩, h.macroId, ?_, h.playing⟩, ?_⟩
    · intro i hi
      rcases List.mem_cons.mp hi with rfl | hi
      · exact hcursor
      · exact h.inside i hi
    · intro slot hslot
      rw [hcells]
      cases slot <;> exact h.stored _ hslot
    · intro slot events hrec
      rw [hcells]
      exact h.recording slot events hrec
    · intro slot _
      rw [hcells]
      exact ⟨by cases slot <;> rfl, fun _ _ => rfl⟩
  rcases hplaying : s.playing with _ | ⟨p, playing⟩
  · cases call with
    | key keycode record valid => exact h.see keycode record valid
    | stopRecording => exact h.finish
    | replay | releaseOneshot | cancelTap | resetTap | next =>
      simpa only [DynamicMacro.step, Ledger.follow, hplaying] using hidle
  · have hp := h.playing p (by simp [hplaying])
    simp only [DynamicMacro.step, Ledger.follow, hplaying]
    have hleaves' := hleaves p (by simp [hplaying])
    cases call with
    | key keycode record valid => exact h.see keycode record valid
    | replay keycode valid => exact h.see keycode _ valid
    | stopRecording => exact h.finish
    | releaseOneshot => exact hwrite hplaying hleaves'
    | cancelTap => exact hwrite hplaying hleaves'
    | resetTap zero => exact hwrite hplaying hleaves'
    | next =>
      refine ⟨⟨⟨h.base_le, h.apart, h.end_le, h.inside, ?_⟩, h.macroId, h.recording, ?_⟩, ?_⟩
      · intro slot hslot
        cases slot <;> exact h.stored _ hslot
      · intro q hq
        rcases List.mem_append.mp hq with hq | hq
        · exact hp.next (by simpa using hq)
        · exact h.playing q (by simp [hplaying, hq])
      · intro slot _
        exact ⟨by cases slot <;> rfl, fun _ _ => rfl⟩

end Refines

/-! ## Runs -/

/-- The buffer stays sound as long as the records that are played are left as they are. -/
theorem macrosSound (build : Build) (zero : KeyRecord K) (calls : List (Call K))
    (h : Along (tracked build) LeavesPlayed
      (Recorder.initial build.size zero, Ledger.initial) calls) :
    Along (tracked build) (SoundStep build)
      (Recorder.initial build.size zero, Ledger.initial) calls :=
  along_of_invariant (fun t => Refines build t.1 t.2)
    (fun _ _ ht hleaves => (ht.step hleaves).1)
    (fun _ _ ht hleaves => ⟨(ht.step hleaves).1.toSound, (ht.step hleaves).2⟩)
    (refines_initial build zero) h

/-- A record of the key {lit}`key`. -/
def keyRecord (key time : ℕ) (pressed : Bool) : KeyRecord ℕ :=
  ⟨⟨key, UInt16.ofNat time, .key, pressed⟩, ⟨false, 0⟩⟩

/-- Two macros, recorded one after the other and played once. -/
def twoMacros : List (Call ℕ) :=
  [.key qkDynamicMacroRecordStart1 (keyRecord 1 1 false) true, .key 0 (keyRecord 9 2 false) true,
    .key 0 (keyRecord 10 3 true) true, .key 0 (keyRecord 10 4 false) true,
    .key qkDynamicMacroRecordStop (keyRecord 3 5 true) true,
    .key qkDynamicMacroRecordStart2 (keyRecord 2 6 false) true,
    .key 0 (keyRecord 11 7 true) true, .key 0 (keyRecord 11 8 false) true,
    .key 0 (keyRecord 12 9 true) true, .stopRecording,
    .key qkDynamicMacroPlay2 (keyRecord 5 10 false) true, .replay 0 true, .next, .replay 0 true,
    .next]

theorem macrosSound_twoMacros :
    Along (tracked ⟨3, false⟩) (SoundStep ⟨3, false⟩)
      (Recorder.initial 3 (keyRecord 0 0 false), Ledger.initial) twoMacros :=
  macrosSound ⟨3, false⟩ (keyRecord 0 0 false) twoMacros (by decide +kernel)

/-- The key 7 is a one-shot layer key.  It is tapped before the key 8, whose press ends the
layer, so that {lit}`process_action` releases the key at once.  The macro with these keys
is played up to that press. -/
def oneshotMacro : List (Call ℕ) :=
  [.key qkDynamicMacroRecordStart1 (keyRecord 1 1 false) true,
    .key 0x5281 { keyRecord 7 2 true with tap := ⟨false, 1⟩ } true,
    .key 0x5281 { keyRecord 7 3 false with tap := ⟨false, 1⟩ } true,
    .key 0 (keyRecord 8 4 true) true, .key 0 (keyRecord 8 4 false) true,
    .key 0 (keyRecord 8 5 false) true,
    .key qkDynamicMacroRecordStop (keyRecord 3 6 true) true,
    .key qkDynamicMacroPlay1 (keyRecord 4 7 false) true, .replay 0x5281 true, .next,
    .replay 0x5281 true, .next, .replay 0 true]

/-- Playing the macro turns the stored press of the key 8 into a release. -/
theorem not_sound_oneshotMacro :
    ¬ ∀ (build : Build) (zero : KeyRecord ℕ) (calls : List (Call ℕ)),
      Along (tracked build) (SoundStep build)
        (Recorder.initial build.size zero, Ledger.initial) calls := by
  intro h
  have hrun := h ⟨128, false⟩ (keyRecord 0 0 false) (oneshotMacro ++ [.releaseOneshot])
  have hsound := (along_append.mp hrun).2.1.1
  have hcell := (hsound.stored .one (by decide +kernel)).cell 2 (by decide +kernel)
  exact absurd (congrArg (fun r => r.event.pressed) hcell) (by decide +kernel)

end DynamicMacro
end VialQmk
