import VialQmk.Combos.ReadyInv

/-!
# Combos - no ready combo is lost

Every program of the engine keeps the invariant as long as the trace stays orderly, so no
ready combo is lost.  Where the ring has no room for one more combo, it looks empty and
all ready combos are lost.

Main results:

- Definition {lit}`Regular`: the entries are those of the table, and the invariant holds if
  the trace is orderly.
- Theorem {lit}`readyKept`: no ready combo is lost along a run with an orderly trace.
-/

namespace VialQmk
namespace Combos

open Machine

/-! ## The trace grows -/

/-- The entries keep their keys, and the trace grows. -/
structure Extends (s s' : Engine) : Prop where
  table : s'.table = s.table
  trace : s.trace <:+ s'.trace

section Extends

variable {build : Build} {table : Table} {s s' s'' : Engine} {c : ℕ}

theorem Extends.refl (s : Engine) : Extends s s :=
  ⟨rfl, List.suffix_refl _⟩

theorem Extends.trans (h : Extends s s') (h' : Extends s' s'') : Extends s s'' :=
  ⟨h'.table.trans h.table, h.trace.trans h'.trace⟩

theorem extends_note (s : Engine) (n : Note) : Extends s (s.note n) :=
  ⟨rfl, List.suffix_cons n s.trace⟩

theorem extends_modifyCombo (c : ℕ) {f : Combo → Combo}
    (hf : ∀ combo, (f combo).keys = combo.keys ∧ (f combo).keycode = combo.keycode) (s : Engine) :
    Extends s (s.modifyCombo c f) :=
  ⟨table_modifyCombo c hf s, List.suffix_refl _⟩

theorem extends_disable (c : ℕ) (s : Engine) : Extends s (s.modifyCombo c Combo.disable) :=
  extends_modifyCombo (f := Combo.disable) c (fun _ => ⟨rfl, rfl⟩) s

/-- Neither the entries nor the trace change. -/
theorem extends_of_eq (hcombos : s'.combos = s.combos) (htrace : s'.trace = s.trace) :
    Extends s s' :=
  ⟨by rw [Engine.table, Engine.table, hcombos], htrace ▸ List.suffix_refl _⟩

theorem extends_dropComboLoop (n i : ℕ) (s : Engine) :
    Extends s (dropComboLoop build c n i s) := by
  induction n generalizing i with
  | zero => exact Extends.refl s
  | succ n ih =>
    unfold dropComboLoop
    dsimp only
    split_ifs
    · exact (extends_disable c s).trans (extends_of_eq rfl rfl)
    · exact extends_disable c s
    · exact ih _
    · exact Extends.refl s

theorem extends_applyCombo (c : ℕ) (s : Engine) : Extends s (applyCombo build c s) := by
  unfold applyCombo
  split
  · exact Extends.refl s
  · rename_i combo _
    split_ifs
    · exact Extends.refl s
    · have hbuffer : Extends s
          { s with keyBuffer := (applyComboLoop build c combo 0 s.keyBuffer).1 } :=
        extends_of_eq rfl rfl
      refine Extends.trans (hbuffer.trans ?_) (extends_dropComboLoop _ _ _)
      split_ifs
      · exact (extends_modifyCombo (f := Combo.activate) c (fun _ => ⟨rfl, rfl⟩) _).trans
          (extends_note _ _)
      · exact Extends.refl _

theorem extends_applyCombosLoop (n i : ℕ) (s : Engine) :
    Extends s (applyCombosLoop build n i s) := by
  induction n generalizing i s with
  | zero => exact Extends.refl s
  | succ n ih =>
    unfold applyCombosLoop
    split_ifs
    · split
      · exact Extends.refl s
      · refine Extends.trans ?_ (ih _ _)
        split
        · exact Extends.refl s
        · split_ifs
          · exact (extends_note s _).trans (extends_dropComboLoop _ _ _)
          · exact extends_applyCombo _ s
    · exact Extends.refl s

theorem extends_applyAll (s : Engine) : Extends s (applyAll build s) :=
  ((extends_note s .applying).trans (extends_applyCombosLoop _ _ _)).trans (extends_note _ .applied)

theorem extends_overlapLoop (n i : ℕ) (drop : Option ℕ) (s : Engine) :
    Extends s (overlapLoop build c n i drop s).1 := by
  induction n generalizing i drop s with
  | zero => exact Extends.refl s
  | succ n ih =>
    unfold overlapLoop
    split_ifs
    · split
      · exact Extends.refl s
      · split
        · exact ih _ _ s
        · dsimp only
          split_ifs
          · exact extends_disable _ s
          · rename_i d _ _ _
            refine (extends_disable d s).trans (Extends.trans ?_ (ih _ _ _))
            exact extends_of_eq rfl rfl
          · exact (extends_disable _ s).trans (ih _ _ _)
    · exact Extends.refl s

theorem extends_queueCombo (c : ℕ) (combo : Combo) (s : Engine) :
    Extends s (queueCombo build c combo s) := by
  have hloop : Extends s (overlapLoop build c build.comboBufferLength s.comboBufferRead none
      (s.note (.fullyPressed c))).1 :=
    (extends_note s (.fullyPressed c)).trans (extends_overlapLoop _ _ _ _)
  unfold queueCombo
  dsimp only
  split_ifs
  · exact (hloop.trans (extends_note _ _)).trans (extends_of_eq rfl rfl)
  · exact hloop

theorem extends_pressCombo (c : ℕ) (combo : Combo) (keyIndex : ℕ) (s : Engine) :
    Extends s (pressCombo build c combo keyIndex s) := by
  have hdown (state : ℕ) : Extends s (setKeyDown c state s) :=
    (extends_modifyCombo (f := fun combo => { combo with state := state }) c
      (fun _ => ⟨rfl, rfl⟩) s).trans (extends_of_eq rfl rfl)
  unfold pressCombo
  dsimp only
  split_ifs
  · exact (extends_note s _).trans (extends_disable c _)
  · exact extends_queueCombo _ _ s
  · exact Extends.refl s
  · exact ((hdown _).trans (extends_note _ _)).trans (extends_disable c _)
  · exact (hdown _).trans (extends_queueCombo _ _ _)
  · exact hdown _

theorem extends_clearCombos (s : Engine) : Extends s (clearCombos s) := by
  refine ⟨?_, List.suffix_refl _⟩
  simp only [clearCombos, Engine.table, List.map_map]
  congr 1
  funext combo
  simp only [Function.comp]
  split_ifs <;> rfl

theorem Orderly.suffix {trace trace' : List Note} (hsuffix : trace <:+ trace')
    (h : Orderly build table trace') : Orderly build table trace := by
  induction trace' with
  | nil =>
    rw [List.suffix_nil.mp hsuffix]
    trivial
  | cons n trace' ih =>
    rcases List.suffix_cons_iff.mp hsuffix with rfl | hsuffix
    · exact h
    · exact ih hsuffix h.1

end Extends

/-! ## Programs -/

/-- The entries are those of the table; and as long as the trace is orderly the invariant
holds, when the keys in the buffer and these ones are withheld. -/
def Regular (build : Build) (table : Table) (pressed : List UInt16) (s : Engine) : Prop :=
  s.table = table ∧ (Orderly build table s.trace →
    Inv build table (s.keyBuffer.map (·.keycode) ++ pressed) s)

/-- The buffer is dumped, and no combo is pending. -/
def Dumped (build : Build) (table : Table) (s : Engine) : Prop :=
  s.table = table ∧ s.keyBuffer = [] ∧ (Orderly build table s.trace →
    (ledger table s.trace).ready = [] ∧ ∃ codes, Inv build table codes s)

section Programs

open Program Resumption

variable {build : Build} {table : Table} {pressed pressed' : List UInt16} {s s' : Engine} {c : ℕ}

theorem Regular.step (h : Regular build table pressed s) (hs : Extends s s')
    (hinv : Orderly build table s'.trace →
      Inv build table (s.keyBuffer.map (·.keycode) ++ pressed) s →
        Inv build table (s'.keyBuffer.map (·.keycode) ++ pressed') s') :
    Regular build table pressed' s' :=
  ⟨hs.table.trans h.1, fun horderly => hinv horderly (h.2 (horderly.suffix hs.trace))⟩

theorem Regular.mono (h : Regular build table [] s) (pressed : List UInt16) :
    Regular build table pressed s :=
  h.step (Extends.refl s) fun _ hinv => hinv.mono fun k hk => by
    rw [List.append_nil] at hk
    exact List.mem_append_left _ hk

/-- No combo is ready when the ring is empty. -/
theorem ready_nil {codes : List UInt16} (h : Inv build table codes s)
    (hempty : s.comboBufferRead = s.comboBufferWrite) : (ledger table s.trace).ready = [] := by
  have hring := h.holds.ring
  cases hready : (ledger table s.trace).ready with
  | nil => rfl
  | cons p ready =>
    rw [hready] at hring
    exact absurd hempty hring.1

theorem Dumped.clear (h : Dumped build table s) : Regular build table [] (clearCombos s) := by
  obtain ⟨htable, hempty, hinv⟩ := h
  refine ⟨(extends_clearCombos s).table.trans htable, fun horderly => ?_⟩
  obtain ⟨hready, codes, hinv⟩ := hinv horderly
  exact (inv_clearCombos hinv hready).mono nofun

theorem regular_releaseCombo (h : Regular build table [] s) (c : ℕ) (combo : Combo) :
    (releaseCombo c combo s).Safe (Regular build table []) (fun _ => True)
      fun s' _ => Regular build table [] s' := by
  simp only [releaseCombo, bind_apply, get_apply, Resumption.bind_done, emit_apply,
    Resumption.bind, modify_apply]
  refine ⟨h, Or.inr fun s' hs' => hs'.step
    (extends_modifyCombo (f := Combo.deactivate) c (fun _ => ⟨rfl, rfl⟩) s') fun _ hinv => ?_⟩
  exact hinv.keep c (f := Combo.deactivate) (fun _ => ⟨rfl, rfl, rfl⟩) (fun _ => rfl)
    fun _ _ hactive => absurd hactive nofun

theorem regular_releaseIfAsked (h : Regular build table [] s) (c : ℕ) (combo : Combo)
    (keyIndex : ℕ) (keycode : UInt16) :
    (releaseIfAsked build c combo keyIndex keycode s).Safe (Regular build table [])
      (fun _ => True) fun s' _ => Regular build table [] s' := by
  unfold releaseIfAsked
  split_ifs
  · exact regular_releaseCombo h _ _
  · exact h

theorem codes_tick (keyBuffer : List QueuedRecord) (i : ℕ) :
    (keyBuffer.modify i QueuedRecord.tick).map (·.keycode) = keyBuffer.map (·.keycode) := by
  apply List.ext_getElem?
  intro j
  simp only [List.getElem?_map, List.getElem?_modify]
  cases keyBuffer[j]? with
  | none => rfl
  | some q =>
    simp only [Option.map_some]
    split_ifs <;> rfl

theorem regular_dumpLoop (h : Regular build table [] s) (n i : ℕ) :
    (dumpLoop n i s).Safe (Regular build table []) (fun _ => True)
      fun s' _ => Regular build table [] s' := by
  induction n generalizing i s with
  | zero => exact h
  | succ n ih =>
    simp only [dumpLoop, bind_apply, get_apply, Resumption.bind_done]
    cases s.keyBuffer[i]? with
    | none => exact h
    | some q =>
      simp only [bind_apply, modify_apply, Resumption.bind_done]
      have hnext : Regular build table [] { s with keyBufferNext := i + 1 } :=
        h.step (extends_of_eq rfl rfl) fun _ hinv => hinv.congr rfl rfl rfl rfl rfl
      split_ifs
      · exact ih hnext _
      · refine ⟨hnext, Or.inr fun s' hs' => ?_⟩
        have hticked : Regular build table []
            { s' with keyBuffer := s'.keyBuffer.modify i QueuedRecord.tick } := by
          refine hs'.step (extends_of_eq rfl rfl) fun _ hinv => ?_
          rw [codes_tick]
          exact hinv.congr rfl rfl rfl rfl rfl
        exact ih hticked _

theorem see_dumping {l : Ledger} (h : l.ready = []) : l.see table .dumping = l := by
  obtain ⟨ready, round, lost⟩ := l
  obtain rfl : ready = [] := h
  simp [Ledger.see]

theorem regular_dumpKeyBuffer (h : Regular build table [] s)
    (hready : Orderly build table s.trace → (ledger table s.trace).ready = []) :
    (dumpKeyBuffer build s).Safe (Regular build table []) (fun _ => True)
      fun s' _ => Dumped build table s' := by
  simp only [dumpKeyBuffer, bind_apply, get_apply, Resumption.bind_done]
  split_ifs with hempty
  · exact ⟨h.1, hempty, fun horderly => ⟨hready horderly, _, h.2 horderly⟩⟩
  · simp only [bind_apply, modify_apply, Resumption.bind_done]
    have hdumping : Regular build table [] (s.note .dumping) := by
      refine h.step (extends_note s .dumping) fun horderly hinv => hinv.note nofun ?_
      exact see_dumping (hready horderly.1)
    refine Safe.bind (regular_dumpLoop hdumping _ _) fun s' _ hs' => ?_
    refine ⟨hs'.1, rfl, fun horderly => ?_⟩
    obtain ⟨horderly, hpending⟩ := horderly
    have hinv := hs'.2 horderly
    have hring : s'.comboBufferRead = s'.comboBufferWrite := by
      simpa using of_decide_eq_false hpending
    have hemptied : Inv build table (s'.keyBuffer.map (·.keycode) ++ [])
        { s' with
          keyBufferNext := 0
          keyBuffer := [] } := hinv.congr rfl rfl rfl rfl rfl
    have hnil : (ledger table s'.trace).ready = [] := ready_nil hinv hring
    refine ⟨hnil, _, hemptied.note ?_ rfl⟩
    exact fun _ heq => absurd heq nofun

/-- The combos of the ring are about to be applied. -/
def Applicable (build : Build) (table : Table) (s : Engine) : Prop :=
  s.table = table ∧ (Orderly build table s.trace →
    ∃ queue, Round build table s queue (ledger table s.trace).ready)

theorem Regular.applicable (h : Regular build table [] s) : Applicable build table s := by
  refine ⟨h.1, fun horderly => ⟨_, Inv.all ?_ horderly⟩⟩
  simpa using h.2 horderly

theorem regular_applyCombos (h : Applicable build table s) :
    (applyCombos build s).Safe (Regular build table []) (fun _ => True)
      fun s' _ => Regular build table [] s' := by
  simp only [applyCombos, bind_apply, modify_apply, Resumption.bind_done]
  have happlied (horderly : Orderly build table (applyAll build s).trace) :=
    (h.2 (horderly.suffix (extends_applyAll s).trace)).elim fun _ hround => hround.applyAll
  have hregular : Regular build table [] (applyAll build s) :=
    ⟨(extends_applyAll s).table.trans h.1, fun horderly => (happlied horderly).1.mono (by simp)⟩
  refine Safe.bind (regular_dumpKeyBuffer hregular fun horderly => (happlied horderly).2) ?_
  intro s' _ hs'
  exact hs'.clear

theorem keyBuffer_dropCombo (s : Engine) :
    (dropComboFromBuffer build c s).keyBuffer = s.keyBuffer := by
  unfold dropComboFromBuffer
  generalize build.comboBufferLength = n
  generalize s.comboBufferRead = i
  induction n generalizing i with
  | zero => rfl
  | succ n ih =>
    unfold dropComboLoop
    dsimp only
    split_ifs
    · rfl
    · rfl
    · exact ih _
    · rfl

/-- The second branch of {lit}`process_single_combo` keeps the invariant. -/
theorem regular_releaseChord (h : Regular build table [] s) {combo : Combo}
    (hc : s.combos[c]? = some combo) (keyIndex : ℕ) {keycode : UInt16}
    (hindex : findKeyIndex combo.keys keycode = some keyIndex) (partOfCombo : Bool) :
    (releaseChord build c combo keyIndex keycode partOfCombo s).Safe (Regular build table [])
      (fun _ => True) fun s' _ => Regular build table [] s' := by
  unfold releaseChord
  split_ifs with hdown hdrop htap
  · simp only [bind_apply, modify_apply, Resumption.bind_done]
    have hs : Extends s (dropComboFromBuffer build c (s.note (.dropped c))) :=
      (extends_note s _).trans (extends_dropComboLoop _ _ _)
    refine h.step hs fun horderly hinv => ?_
    rw [dropComboFromBuffer, trace_dropComboLoop] at horderly
    rw [keyBuffer_dropCombo]
    exact hinv.dropped horderly.2
  · simp only [bind_apply, modify_apply, Resumption.bind_done]
    have happlicable : Applicable build table (applyCombo build c s) := by
      refine ⟨(extends_applyCombo c s).table.trans h.1, fun horderly => ?_⟩
      have horderly' := horderly.suffix (extends_applyCombo c s).trace
      rw [Bool.not_eq_true, Bool.or_eq_false_iff] at hdrop
      have hne : combo.keys ≠ [] :=
        List.length_pos_iff.mp (Nat.zero_lt_of_lt (findKeyIndex_lt hindex))
      have hinv := h.2 horderly'
      rw [List.append_nil] at hinv
      exact hinv.tap horderly' hc hdrop.1 hne hdown.2 htap
    refine Safe.bind (regular_applyCombos happlicable) fun s' _ hs' => ?_
    exact Safe.bind (regular_releaseIfAsked hs' _ _ _ _) fun _ _ hs' => hs'
  · exact h
  · exact Safe.bind (regular_releaseCombo h _ _) fun _ _ hs' => hs'
  · exact Safe.bind (regular_releaseIfAsked h _ _ _ _) fun _ _ hs' => hs'
  · exact h

/-- What is withheld besides the keys in the buffer, once a combo takes the event. -/
def pressedKeys (keycode : UInt16) (record : ComboRecord) (isComboKey : Bool) : List UInt16 :=
  if record.event.pressed && isComboKey then [keycode] else []

theorem Regular.or {keycode : UInt16} {record : ComboRecord} {isComboKey : Bool}
    (h : Regular build table (pressedKeys keycode record isComboKey) s) (partOfCombo : Bool) :
    Regular build table (pressedKeys keycode record (isComboKey || partOfCombo)) s := by
  cases isComboKey with
  | false =>
    have hregular : Regular build table [] s := by simpa [pressedKeys] using h
    exact hregular.mono _
  | true => exact h

theorem Regular.keyUp (h : Regular build table pressed s) {k : ℕ}
    (hk : k < (table.keys c).length) :
    Regular build table pressed
      (s.modifyCombo c fun combo => { combo with state := keyStateUp combo.state k }) :=
  h.step (extends_modifyCombo (f := fun combo => { combo with state := keyStateUp combo.state k }) c
    (fun _ => ⟨rfl, rfl⟩) s) fun _ hinv => hinv.keyUp hk

/-- A key that is not down is not released. -/
theorem releaseChord_up {combo : Combo} {keyIndex : ℕ} {keycode : UInt16}
    (hindex : findKeyIndex combo.keys keycode = some keyIndex)
    (hup : keyNotYetReleased combo.state keyIndex = false) (partOfCombo : Bool) (s : Engine) :
    releaseChord build c combo keyIndex keycode partOfCombo s = .done s false := by
  have hall : allKeysDown combo.state combo.keys.length = false := by
    rw [← Bool.not_eq_true]
    intro hall
    have hstate : 2 ^ combo.keys.length - 1 = combo.state := of_decide_eq_true hall
    rw [keyNotYetReleased, ← hstate, Nat.testBit_two_pow_sub_one,
      decide_eq_true (findKeyIndex_lt hindex)] at hup
    exact absurd hup nofun
  simp [releaseChord, hall, hup]

theorem keyBuffer_overlapLoop (build : Build) (c n i : ℕ) (drop : Option ℕ) (s : Engine) :
    (overlapLoop build c n i drop s).1.keyBuffer = s.keyBuffer := by
  induction n generalizing i drop s with
  | zero => rfl
  | succ n ih =>
    unfold overlapLoop
    split_ifs
    · split
      · rfl
      · split
        · exact ih _ _ s
        · dsimp only
          split_ifs
          · rfl
          · exact ih _ _ _
          · exact ih _ _ _
    · rfl

theorem keyBuffer_pressCombo (combo : Combo) (keyIndex : ℕ) (s : Engine) :
    (pressCombo build c combo keyIndex s).keyBuffer = s.keyBuffer := by
  have hqueue (combo : Combo) (s : Engine) :
      (queueCombo build c combo s).keyBuffer = s.keyBuffer := by
    have hloop := keyBuffer_overlapLoop build c build.comboBufferLength s.comboBufferRead none
      (s.note (.fullyPressed c))
    unfold queueCombo
    dsimp only
    split_ifs
    · exact hloop
    · exact hloop
  unfold pressCombo
  dsimp only
  split_ifs
  · rfl
  · exact hqueue _ _
  · rfl
  · rfl
  · exact hqueue _ _
  · rfl

/-- A key that is pressed again is not orderly. -/
theorem regular_notePressedAgain {keycode : UInt16} {record : ComboRecord} {isComboKey : Bool}
    {combo : Combo} {keyIndex : ℕ}
    (h : Regular build table (pressedKeys keycode record isComboKey) s)
    (hup : ¬ (keyNotYetReleased combo.state keyIndex = false ∧ record.event.pressed = true)) :
    Regular build table [] (notePressedAgain c combo keyIndex record s) := by
  unfold notePressedAgain
  split_ifs with hagain
  · exact ⟨h.1, fun horderly => absurd horderly.2 id⟩
  · have hpressed : record.event.pressed = false := by
      rw [← Bool.not_eq_true]
      intro hpressed
      refine hup ⟨?_, hpressed⟩
      rw [← Bool.not_eq_true]
      exact fun hdown => hagain ⟨hpressed, hdown⟩
    simpa [pressedKeys, hpressed] using h

theorem regular_processSingleCombo {keycode : UInt16} {record : ComboRecord} {isComboKey : Bool}
    (h : Regular build table (pressedKeys keycode record isComboKey) s) (c : ℕ) :
    (processSingleCombo build c keycode record s).Safe (Regular build table []) (fun _ => True)
      fun s' partOfCombo =>
        Regular build table (pressedKeys keycode record (isComboKey || partOfCombo)) s' := by
  simp only [processSingleCombo, bind_apply, get_apply, Resumption.bind_done]
  cases hc : s.combos[c]? with
  | none => exact h.or false
  | some combo =>
    dsimp only
    cases hindex : findKeyIndex combo.keys keycode with
    | none => exact h.or false
    | some keyIndex =>
      dsimp only
      have hk : keyIndex < (table.keys c).length := by
        rw [← h.1, keys_table hc]
        exact findKeyIndex_lt hindex
      split_ifs with hpress
      · simp only [Bool.and_eq_true] at hpress
        have hpressed : pressedKeys keycode record (isComboKey || true) = [keycode] := by
          simp [pressedKeys, hpress.1]
        have hregular := h.or true
        rw [hpressed] at hregular
        simp only [bind_apply, modify_apply, Resumption.bind_done]
        show Regular build table (pressedKeys keycode record (isComboKey || true)) _
        rw [hpressed]
        refine hregular.step (extends_pressCombo c combo keyIndex s) fun horderly hinv => ?_
        rw [keyBuffer_pressCombo]
        refine inv_pressCombo hinv hc ?_ hindex (by simp) horderly
        simpa using hpress.2.1.1
      · simp only [bind_apply, modify_apply, Resumption.bind_done]
        by_cases hup : keyNotYetReleased combo.state keyIndex = false ∧ record.event.pressed = true
        · have hsame : notePressedAgain c combo keyIndex record s = s := by
            simp [notePressedAgain, hup.1]
          rw [hsame, releaseChord_up hindex hup.1]
          exact (h.or false).keyUp hk
        · have hregular := regular_notePressedAgain (c := c) h hup
          have hc' : (notePressedAgain c combo keyIndex record s).combos[c]? = some combo := by
            rw [← hc, notePressedAgain]
            split_ifs <;> rfl
          refine Safe.bind (regular_releaseChord hregular hc' keyIndex hindex _) fun s' _ hs' => ?_
          exact (hs'.mono _).keyUp hk

theorem regular_comboLoop {keycode : UInt16} {record : ComboRecord} (indices : List ℕ)
    {isComboKey : Bool} (h : Regular build table (pressedKeys keycode record isComboKey) s) :
    (comboLoop build keycode record indices isComboKey s).Safe (Regular build table [])
      (fun _ => True) fun s' isComboKey =>
        Regular build table (pressedKeys keycode record isComboKey) s' := by
  induction indices generalizing isComboKey s with
  | nil => exact h
  | cons c rest ih =>
    exact Safe.bind (regular_processSingleCombo h c) fun s' _ hs' => ih hs'

theorem regular_bufferKey {keycode : UInt16} (h : Regular build table [keycode] s)
    (record : ComboRecord) : Regular build table [] (bufferKey build keycode record s) := by
  have hs : Extends s (bufferKey build keycode record s) :=
    (extends_note s _).trans (extends_of_eq rfl rfl)
  refine h.step hs fun horderly hinv => ?_
  have hroom : decide (s.keyBuffer.length < build.keyBufferLength) = true := horderly.2
  have hnoted : Inv build table (s.keyBuffer.map (·.keycode) ++ [keycode])
      (s.note (.withheld s.clock s.enabled (s.keyBuffer.length < build.keyBufferLength)
        s.timer)) := hinv.note nofun rfl
  have hcodes : (bufferKey build keycode record s).keyBuffer.map (·.keycode) ++ [] =
      s.keyBuffer.map (·.keycode) ++ [keycode] := by
    simp [bufferKey, of_decide_eq_true hroom]
  rw [hcodes]
  exact hnoted.congr rfl rfl rfl rfl rfl

theorem Regular.enable (h : Regular build table [] s) :
    Regular build table [] (comboEnable s) :=
  h.step (extends_of_eq rfl rfl) fun _ hinv => hinv.congr rfl rfl rfl rfl rfl

/-- No combo is pending, so the buffer is dumped. -/
theorem regular_dumpClear (h : Regular build table [] s)
    (hempty : s.comboBufferRead = s.comboBufferWrite) :
    ((do
      dumpKeyBuffer build
      modify fun s => { s with timer := 0 }
      modify clearCombos : ComboM Unit) s).Safe (Regular build table []) (fun _ => True)
        fun s' _ => Regular build table [] s' := by
  simp only [bind_apply]
  refine Safe.bind (regular_dumpKeyBuffer h fun horderly => ready_nil (h.2 horderly) hempty) ?_
  intro s' _ hs'
  have hstopped : Dumped build table { s' with timer := 0 } := by
    refine ⟨hs'.1, hs'.2.1, fun horderly => ?_⟩
    obtain ⟨hready, codes, hinv⟩ := hs'.2.2 horderly
    exact ⟨hready, codes, hinv.congr rfl rfl rfl rfl rfl⟩
  exact hstopped.clear

theorem regular_flush (h : Regular build table [] s) :
    (flush build s).Safe (Regular build table []) (fun _ => True)
      fun s' _ => Regular build table [] s' := by
  simp only [flush, bind_apply, get_apply, Resumption.bind_done]
  split_ifs with hpending
  · exact regular_applyCombos h.applicable
  · exact regular_dumpClear h (not_not.mp hpending)

/-- Combos are turned off while none is ready. -/
theorem inv_turnedOff {codes : List UInt16} (h : Inv build table codes s)
    (hready : (ledger table s.trace).ready = []) :
    Inv build table [] (clearCombos
      { s.note .turnedOff with
        timer := 0
        enabled := false
        comboBufferRead := s.comboBufferWrite }) := by
  have hshape : Shape build table (s.note .turnedOff) := h.shape.note nofun
  have hempty : Inv build table codes
      { s.note .turnedOff with
        timer := 0
        enabled := false
        comboBufferRead := s.comboBufferWrite } := by
    refine ⟨⟨hshape.table, hshape.slots, hshape.write_lt, hshape.write_lt, hshape.applied,
      hshape.noWrap⟩, ⟨?_, h.holds.short, h.holds.nodup, h.holds.live, h.holds.bits⟩, h.full,
      h.round, h.lost⟩
    show RingFrom build s.comboBuffer s.comboBufferWrite s.comboBufferWrite
      (ledger table s.trace).ready
    rw [hready]
    rfl
  exact inv_clearCombos hempty hready

/-- No key of a combo is down after combos are turned off. -/
theorem inv_off {codes : List UInt16} (h : Inv build table codes s)
    (hready : (ledger table s.trace).ready = [])
    (hclean : (s.combos.all fun combo => combo.active || combo.state = 0) = true) :
    Inv build table [] (s.note (.off (s.combos.all fun combo =>
      combo.active || combo.state = 0))) := by
  have hbits : ∀ (p : ℕ) (combo : Combo), s.combos[p]? = some combo → combo.disabled = false →
      combo.state = 0 := by
    intro p combo hp hdisabled
    have hcombo := List.all_eq_true.mp hclean combo (List.mem_of_getElem? hp)
    rw [Bool.or_eq_true, decide_eq_true_eq] at hcombo
    rcases hcombo with hactive | hzero
    · exact absurd (h.shape.applied p combo hp hactive) (by simp [hdisabled])
    · exact hzero
  refine Inv.note ⟨h.shape, ⟨h.holds.ring, h.holds.short, h.holds.nodup, ?_, ?_⟩, h.full, h.round,
    h.lost⟩ nofun rfl
  · rw [hready]
    exact fun p hp => absurd hp List.not_mem_nil
  · intro p combo hp hdisabled i hi
    rw [hbits p combo hp hdisabled, Nat.zero_testBit] at hi
    exact absurd hi nofun

theorem regular_comboDisable (h : Regular build table [] s) :
    (comboDisable build s).Safe (Regular build table []) (fun _ => True)
      fun s' _ => Regular build table [] s' := by
  simp only [comboDisable, bind_apply, modify_apply, Resumption.bind_done]
  have hempty : Extends (s.note .turnedOff)
      { s.note .turnedOff with
        timer := 0
        enabled := false
        comboBufferRead := s.comboBufferWrite } := extends_of_eq rfl rfl
  have hs := ((extends_note s .turnedOff).trans hempty).trans (extends_clearCombos _)
  have hcleared : Regular build table [] _ := h.step hs fun horderly hinv =>
    (inv_turnedOff hinv horderly.2).mono nofun
  refine Safe.bind (regular_dumpKeyBuffer hcleared fun horderly => horderly.2) fun s' _ hs' => ?_
  refine ⟨hs'.1, fun horderly => ?_⟩
  obtain ⟨hready, codes, hinv⟩ := hs'.2.2 horderly.1
  exact (inv_off hinv hready horderly.2).mono nofun

theorem regular_comboToggle (h : Regular build table [] s) :
    (comboToggle build s).Safe (Regular build table []) (fun _ => True)
      fun s' _ => Regular build table [] s' := by
  simp only [comboToggle, bind_apply, get_apply, Resumption.bind_done]
  split_ifs
  · exact regular_comboDisable h
  · exact h.enable

theorem regular_processCombo (h : Regular build table [] s) (keycode refKeycode : UInt16)
    (record : ComboRecord) :
    (processCombo build keycode refKeycode record s).Safe (Regular build table [])
      (fun _ => True) fun s' _ => Regular build table [] s' := by
  unfold processCombo
  split_ifs
  · exact h.enable
  · exact Safe.bind (regular_comboDisable h) fun _ _ hs' => hs'
  · exact Safe.bind (regular_comboToggle h) fun _ _ hs' => hs'
  · simp only [bind_apply, get_apply, Resumption.bind_done]
    have hstart : Regular build table (pressedKeys refKeycode record false) s := by
      simpa [pressedKeys] using h
    refine Safe.bind (regular_comboLoop _ hstart) fun s' isComboKey hs' => ?_
    split_ifs with htaken
    · rw [pressedKeys, if_pos htaken] at hs'
      exact regular_bufferKey hs' record
    · rw [pressedKeys, if_neg htaken] at hs'
      exact Safe.bind (regular_flush hs') fun _ _ hs'' => hs''

theorem regular_comboTask (h : Regular build table [] s) :
    (comboTask build s).Safe (Regular build table []) (fun _ => True)
      fun s' _ => Regular build table [] s' := by
  simp only [comboTask, bind_apply, get_apply, Resumption.bind_done]
  split_ifs with henabled htimer hpending
  · refine Safe.bind (regular_applyCombos h.applicable) fun s' _ hs' => ?_
    exact hs'.step (extends_of_eq rfl rfl) fun _ hinv => hinv.congr rfl rfl rfl rfl rfl
  · exact regular_dumpClear h (not_not.mp hpending)
  · exact h
  · exact h

/-- Every call but the one that reloads the entries keeps the invariant. -/
theorem regular_program (h : Regular build table [] s) {call : Call}
    (hcall : ∀ combos, call ≠ .reload combos) :
    (program build call s).Safe (Regular build table []) (fun _ => True)
      fun s' _ => Regular build table [] s' := by
  cases call with
  | key keycode refKeycode record =>
    exact Safe.bind (regular_processCombo h _ _ _) fun _ _ hs' => hs'
  | task => exact regular_comboTask h
  | enable => exact h.enable
  | disable => exact regular_comboDisable h
  | toggle => exact regular_comboToggle h
  | reload combos => exact absurd rfl (hcall combos)
  | setTerm comboTerm =>
    exact h.step (extends_of_eq rfl rfl) fun _ hinv => hinv.congr rfl rfl rfl rfl rfl
  | wait ms => exact h.step (extends_of_eq rfl rfl) fun _ hinv => hinv.congr rfl rfl rfl rfl rfl

end Programs

/-! ## No ready combo is lost -/

/-- Entries as they are loaded from the table of the host. -/
def fresh (entries : List (List UInt16 × UInt16)) : List Combo :=
  entries.map fun entry => Combo.ofEntry entry.1 entry.2

/-- The calls, while the host does not set an entry. -/
abbrev FixedCall := { call : Call // ∀ combos, call ≠ .reload combos }

/-- A run with these entries. -/
def runFrom (build : Build) (entries : List (List UInt16 × UInt16)) (comboTerm : UInt16)
    (inputs : List (Machine.Input FixedCall)) : Machine Emission Engine :=
  StateMachine.run (step fun call => program build call.1)
    ⟨Engine.initial build (fresh entries) comboTerm, []⟩ inputs

/-- The keys and the keycodes of the entries. -/
def tableOf (entries : List (List UInt16 × UInt16)) : Table :=
  entries.map fun entry => (entry.1.takeWhile (· ≠ 0), entry.2)

theorem table_initial (build : Build) (entries : List (List UInt16 × UInt16))
    (comboTerm : UInt16) :
    (Engine.initial build (fresh entries) comboTerm).table = tableOf entries := by
  simp only [Engine.initial, Engine.table, fresh, tableOf, List.map_map]
  rfl

/-- Nothing is ready after power-up. -/
theorem regular_initial (build : Build) (entries : List (List UInt16 × UInt16))
    (comboTerm : UInt16) :
    Regular build (tableOf entries) [] (Engine.initial build (fresh entries) comboTerm) := by
  have hfresh : ∀ (p : ℕ) (combo : Combo), (fresh entries)[p]? = some combo →
      combo.active = false ∧ combo.state = 0 := by
    intro p combo hp
    rw [fresh, List.getElem?_map] at hp
    obtain ⟨entry, _, rfl⟩ := Option.map_eq_some_iff.mp hp
    exact ⟨rfl, rfl⟩
  refine ⟨table_initial build entries comboTerm, fun _ => ⟨⟨table_initial build entries comboTerm,
    List.length_replicate, build.comboBufferLength_pos, build.comboBufferLength_pos, ?_, ?_⟩,
    ⟨rfl, build.comboBufferLength_pos, List.nodup_nil, ?_, ?_⟩, ?_, rfl, rfl⟩⟩
  · intro p combo hp hactive
    rw [(hfresh p combo hp).1] at hactive
    exact absurd hactive nofun
  · exact fun _ => List.not_mem_nil
  · exact fun p hp => absurd hp List.not_mem_nil
  · intro p combo hp _ i hi
    rw [(hfresh p combo hp).2, Nat.zero_testBit] at hi
    exact absurd hi nofun
  · intro p combo hp _ hne hall
    rw [(hfresh p combo hp).2, allKeysDown_zero hne] at hall
    exact absurd hall nofun

/-- No ready combo is lost along a run with an orderly trace. -/
theorem readyKept (build : Build) (entries : List (List UInt16 × UInt16)) (comboTerm : UInt16)
    (inputs : List (Machine.Input FixedCall))
    (horderly : Orderly build (tableOf entries)
      (runFrom build entries comboTerm inputs).state.trace) :
    ReadyKept (tableOf entries) (runFrom build entries comboTerm inputs).state.trace := by
  have hregular : Regular build (tableOf entries) []
      (runFrom build entries comboTerm inputs).state :=
    weak_run (fun call _ hs => regular_program hs call.2)
      (regular_initial build entries comboTerm) inputs
  have hinv := hregular.2 horderly
  exact ⟨hinv.lost, hinv.shape.noWrap⟩

/-- A key is pressed or released. -/
def keyCall (keycode : UInt16) (pressed : Bool) : Machine.Input FixedCall :=
  .start ⟨.key keycode keycode (keyRecord 0 (UInt8.ofNat keycode.toNat) 1 pressed), nofun⟩

def waitCall (ms : ℕ) : Machine.Input FixedCall :=
  .start ⟨.wait ms, nofun⟩

def taskCall : Machine.Input FixedCall :=
  .start ⟨.task, nofun⟩

/-- The keys 4, 5 and 7 are pressed, which drops the combo of the first two, and the term
passes. -/
def chordOfThree : List (Machine.Input FixedCall) :=
  [waitCall 1000, keyCall 4 true, keyCall 5 true, keyCall 7 true, waitCall 60, taskCall, .resume]

theorem readyKept_chordOfThree :
    ReadyKept (tableOf [([4, 5], 10), ([4, 5, 7], 11)])
      (runFrom Build.vial [([4, 5], 10), ([4, 5, 7], 11)] 50 chordOfThree).state.trace :=
  readyKept Build.vial [([4, 5], 10), ([4, 5, 7], 11)] 50 chordOfThree (by decide +kernel)

/-- Four combos of two keys each are ready at once. -/
def fourCombos : List (Machine.Input FixedCall) :=
  waitCall 1000 :: [4, 5, 6, 7, 8, 9, 10, 11].map (keyCall · true) ++ [waitCall 60, taskCall]

/-- The ring has room for three combos, so it looks empty and all four are lost. -/
theorem not_readyKept_fourCombos :
    ¬ ∀ (build : Build) (entries : List (List UInt16 × UInt16)) (comboTerm : UInt16)
      (inputs : List (Machine.Input FixedCall)),
      ReadyKept (tableOf entries) (runFrom build entries comboTerm inputs).state.trace := by
  intro h
  have hlost := (h Build.vial [([4, 5], 20), ([6, 7], 21), ([8, 9], 22), ([10, 11], 23)] 50
    fourCombos).1
  exact absurd hlost (by decide +kernel)

end Combos
end VialQmk
