import VialQmk.Combos.Engine
import Mathlib.Data.List.Nodup
import Mathlib.Tactic.Common

/-!
# Combos - the ring of pending combos

What the loops over the ring do, when the ring holds a queue of combos and is not full,
and what the loop over the buffer does for a combo whose keys are all in it.

Main results:

- Definition {lit}`RingFrom`: the queue a ring holds.
- Theorem {lit}`RingFrom.push`: a combo that is put into a ring with room is the last one.
- Theorems {lit}`dropCombo_head`, {lit}`dropCombo_tail` and {lit}`dropCombo_not_mem`: what
  dropping a combo does.
- Theorem {lit}`applyComboLoop_activated`: a combo is activated if the buffer has all of
  its keys.
-/

namespace VialQmk
namespace Combos

/-! ## The ring -/

/-- From the position {lit}`i` to {lit}`write` the ring holds this queue. -/
def RingFrom (build : Build) (ring : List ℕ) (write : ℕ) : ℕ → List ℕ → Prop
  | i, [] => i = write
  | i, comboIndex :: queue => i ≠ write ∧ ring[i]? = some comboIndex ∧
      RingFrom build ring write (build.incrementMod i) queue

section Ring

variable {build : Build} {ring : List ℕ} {write i : ℕ} {queue : List ℕ} {comboIndex : ℕ}

theorem incrementMod_lt (hpos : 0 < build.comboBufferLength) (i : ℕ) :
    build.incrementMod i < build.comboBufferLength :=
  Nat.mod_lt _ hpos

/-- Less than one turn does not come back. -/
theorem add_mod_ne {n k : ℕ} (hi : i < n) (hpos : 0 < k) (hk : k < n) : (i + k) % n ≠ i := by
  by_cases h : i + k < n
  · rw [Nat.mod_eq_of_lt h]
    omega
  · rw [Nat.mod_eq_sub_mod (by omega), Nat.mod_eq_of_lt (by omega)]
    omega

theorem incrementMod_add (build : Build) (i k : ℕ) :
    (build.incrementMod i + k) % build.comboBufferLength =
      (i + (k + 1)) % build.comboBufferLength := by
  rw [Build.incrementMod, Nat.mod_add_mod, Nat.add_assoc, Nat.add_comm 1 k]

/-- Where the queue ends. -/
theorem RingFrom.write_eq (h : RingFrom build ring write i queue)
    (hi : i < build.comboBufferLength) :
    write = (i + queue.length) % build.comboBufferLength := by
  induction queue generalizing i with
  | nil =>
    obtain rfl := h
    exact (Nat.mod_eq_of_lt hi).symm
  | cons comboIndex queue ih =>
    rw [ih h.2.2 (incrementMod_lt (by omega) i), incrementMod_add]
    rfl

/-- A combo that is put into a ring with room is the last one. -/
theorem RingFrom.push (h : RingFrom build ring write i queue) (hi : i < build.comboBufferLength)
    (hring : write < ring.length) (hroom : queue.length + 1 < build.comboBufferLength)
    (comboIndex : ℕ) :
    RingFrom build (ring.set write comboIndex) (build.incrementMod write) i
      (queue ++ [comboIndex]) := by
  induction queue generalizing i with
  | nil =>
    obtain rfl := h
    refine ⟨?_, List.getElem?_set_self hring, rfl⟩
    exact (add_mod_ne hi Nat.one_pos hroom).symm
  | cons first queue ih =>
    obtain ⟨hne, hfirst, hrest⟩ := h
    rw [List.length_cons] at hroom
    refine ⟨?_, ?_, ih hrest (incrementMod_lt (by omega) i) (by omega)⟩
    · have hwrite := hrest.write_eq (incrementMod_lt (by omega) i)
      rw [incrementMod_add] at hwrite
      rw [hwrite, Build.incrementMod, Nat.mod_add_mod, Nat.add_assoc]
      exact (add_mod_ne hi (by omega) (by omega)).symm
    · rw [List.getElem?_set_ne hne.symm]
      exact hfirst

/-- The later combos of a queue are not at the first position. -/
theorem RingFrom.position_ne (hi : i < build.comboBufferLength) {j : ℕ}
    (hj : j + 1 < build.comboBufferLength) :
    (build.incrementMod i + j) % build.comboBufferLength ≠ i := by
  rw [incrementMod_add]
  exact add_mod_ne hi (by omega) hj

end Ring

/-! ## Dropping a combo -/

section Drop

variable {build : Build} {s : Engine} {queue : List ℕ} {comboIndex : ℕ}

theorem dropCombo_head (hpos : 0 < build.comboBufferLength)
    (h : RingFrom build s.comboBuffer s.comboBufferWrite s.comboBufferRead
      (comboIndex :: queue)) :
    dropComboFromBuffer build comboIndex s =
      { s.modifyCombo comboIndex Combo.disable with
        comboBufferRead := build.incrementMod s.comboBufferRead } := by
  obtain ⟨n, hn⟩ := Nat.exists_eq_succ_of_ne_zero (Nat.pos_iff_ne_zero.mp hpos)
  obtain ⟨hne, hfirst, _⟩ := h
  rw [dropComboFromBuffer, hn, dropComboLoop, if_pos hne, if_pos hfirst]
  exact if_pos rfl

/-- A combo behind the head stays in the ring, but is disabled. -/
theorem dropComboLoop_tail {n i : ℕ} (hi : i < build.comboBufferLength)
    (h : RingFrom build s.comboBuffer s.comboBufferWrite i queue) (hmem : comboIndex ∈ queue)
    (hn : queue.length ≤ n)
    (hread : ∀ j < queue.length, (i + j) % build.comboBufferLength ≠ s.comboBufferRead) :
    dropComboLoop build comboIndex n i s = s.modifyCombo comboIndex Combo.disable := by
  induction queue generalizing i n with
  | nil => exact absurd hmem List.not_mem_nil
  | cons first queue ih =>
    obtain ⟨hne, hfirst, hrest⟩ := h
    obtain ⟨n, rfl⟩ := Nat.exists_eq_succ_of_ne_zero (n := n) (by
      rintro rfl
      simp at hn)
    rw [dropComboLoop, if_pos hne]
    by_cases heq : s.comboBuffer[i]? = some comboIndex
    · have hhead := hread 0 (by simp)
      rw [Nat.add_zero, Nat.mod_eq_of_lt hi] at hhead
      rw [if_pos heq]
      exact if_neg hhead
    · rw [if_neg heq]
      have hmem' : comboIndex ∈ queue := by
        rcases List.mem_cons.mp hmem with rfl | hmem'
        · exact absurd hfirst heq
        · exact hmem'
      refine ih (incrementMod_lt (by omega) i) hrest hmem' (by simpa using hn) ?_
      intro j hj
      rw [incrementMod_add]
      exact hread (j + 1) (by simpa using hj)

theorem dropCombo_tail {first : ℕ} (hread : s.comboBufferRead < build.comboBufferLength)
    (h : RingFrom build s.comboBuffer s.comboBufferWrite s.comboBufferRead (first :: queue))
    (hlen : queue.length + 1 < build.comboBufferLength) (hne : comboIndex ≠ first)
    (hmem : comboIndex ∈ queue) :
    dropComboFromBuffer build comboIndex s = s.modifyCombo comboIndex Combo.disable := by
  obtain ⟨n, hn⟩ := Nat.exists_eq_succ_of_ne_zero (n := build.comboBufferLength) (by omega)
  obtain ⟨hwrite, hfirst, hrest⟩ := h
  rw [dropComboFromBuffer, hn, dropComboLoop, if_pos hwrite, if_neg (by
    rw [hfirst]
    exact fun heq => hne (Option.some.inj heq).symm)]
  refine dropComboLoop_tail (incrementMod_lt (by omega) _) hrest hmem (by omega) ?_
  exact fun j hj => RingFrom.position_ne hread (by omega)

theorem dropCombo_not_mem {n i : ℕ}
    (h : RingFrom build s.comboBuffer s.comboBufferWrite i queue) (hmem : comboIndex ∉ queue) :
    dropComboLoop build comboIndex n i s = s := by
  induction queue generalizing i n with
  | nil =>
    cases n with
    | zero => rfl
    | succ n =>
      have hend : i = s.comboBufferWrite := h
      rw [dropComboLoop, if_neg (not_not.mpr hend)]
  | cons first queue ih =>
    obtain ⟨hne, hfirst, hrest⟩ := h
    rw [List.mem_cons, not_or] at hmem
    cases n with
    | zero => rfl
    | succ n =>
      rw [dropComboLoop, if_pos hne, if_neg (by
        rw [hfirst]
        exact fun heq => hmem.1 (Option.some.inj heq).symm)]
      exact ih hrest hmem.2

end Drop

/-! ## Applying a combo -/

/-- The keys of a combo, and no more than its state has bits for, are among these
keycodes. -/
def Complete (build : Build) (codes keys : List UInt16) : Prop :=
  0 < keys.length ∧ keys.length ≤ build.stateBits ∧
    ∀ i < keys.length, ∃ keycode ∈ codes, findKeyIndex keys keycode = some i

section Apply

variable {build : Build} {combo : Combo} {comboIndex : ℕ}

theorem findKeyIndex_lt {keys : List UInt16} {keycode : UInt16} {i : ℕ}
    (h : findKeyIndex keys keycode = some i) : i < keys.length := by
  have hmem := List.mem_of_getLast? h
  exact List.mem_range.mp (List.mem_filter.mp hmem).1

/-- The loop of {lit}`apply_combo` keeps the keycodes of the buffer. -/
theorem applyComboLoop_codes (state : ℕ) (keyBuffer : List QueuedRecord) :
    (applyComboLoop build comboIndex combo state keyBuffer).1.map (·.keycode) =
      keyBuffer.map (·.keycode) := by
  induction keyBuffer generalizing state with
  | nil => rfl
  | cons q rest ih =>
    unfold applyComboLoop
    cases findKeyIndex combo.keys q.keycode with
    | none => simp [ih]
    | some keyIndex =>
      dsimp only
      split_ifs
      · simp [QueuedRecord.output]
      · simp [ih, QueuedRecord.tick]

/-- A combo is activated if the buffer has all of its keys that are not seen yet. -/
theorem applyComboLoop_activated {state : ℕ} {keyBuffer : List QueuedRecord}
    (hbits : combo.keys.length ≤ build.stateBits) (hlt : state < 2 ^ combo.keys.length)
    (hfull : allKeysDown state combo.keys.length = false)
    (hkeys : ∀ i < combo.keys.length, state.testBit i = true ∨
      ∃ q ∈ keyBuffer, findKeyIndex combo.keys q.keycode = some i) :
    (applyComboLoop build comboIndex combo state keyBuffer).2 = true := by
  induction keyBuffer generalizing state with
  | nil =>
    have hall : state = 2 ^ combo.keys.length - 1 := by
      apply Nat.eq_of_testBit_eq
      intro i
      rw [Nat.testBit_two_pow_sub_one]
      by_cases hi : i < combo.keys.length
      · simpa [hi] using hkeys i hi
      · simp only [hi, decide_false]
        exact Nat.testBit_lt_two_pow
          (Nat.lt_of_lt_of_le hlt (Nat.pow_le_pow_right (by omega) (by omega)))
    simp [allKeysDown, hall] at hfull
  | cons q rest ih =>
    unfold applyComboLoop
    cases hq : findKeyIndex combo.keys q.keycode with
    | none =>
      refine ih hlt hfull fun i hi => ?_
      rcases hkeys i hi with hbit | ⟨q', hmem, hq'⟩
      · exact Or.inl hbit
      · rcases List.mem_cons.mp hmem with rfl | hmem
        · rw [hq] at hq'
          exact absurd hq' nofun
        · exact Or.inr ⟨q', hmem, hq'⟩
    | some keyIndex =>
      have hindex := findKeyIndex_lt hq
      have hstate : keyStateDown build state keyIndex = state ||| 2 ^ keyIndex := by
        refine Nat.mod_eq_of_lt ?_
        have hpow : 2 ^ keyIndex < 2 ^ combo.keys.length := Nat.pow_lt_pow_right (by omega) hindex
        exact Nat.lt_of_lt_of_le (Nat.or_lt_two_pow hlt hpow)
          (Nat.pow_le_pow_right (by omega) hbits)
      dsimp only
      rw [hstate]
      split_ifs with hdown
      · rfl
      · refine ih ?_ (by simpa using hdown) fun i hi => ?_
        · exact Nat.or_lt_two_pow hlt (Nat.pow_lt_pow_right (by omega) hindex)
        · rw [Nat.testBit_or]
          rcases hkeys i hi with hbit | ⟨q', hmem, hq'⟩
          · exact Or.inl (by simp [hbit])
          · rcases List.mem_cons.mp hmem with rfl | hmem
            · rw [hq] at hq'
              obtain rfl := Option.some.inj hq'
              exact Or.inl (by simp [Nat.testBit_two_pow_self])
            · exact Or.inr ⟨q', hmem, hq'⟩

end Apply

end Combos
end VialQmk
