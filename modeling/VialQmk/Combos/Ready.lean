import VialQmk.Combos.Pending

/-!
# Combos - ready combos

A combo is ready when all of its keys are down within its term.  A ledger over the trace
keeps the combos that are ready: one leaves it when a longer one that shares a key becomes
ready, or is ready already, when the release of a key drops it, and when the pending combos
are applied, where those that must be tapped are left out.  Each of the others has to be
applied once.

Main results:

- Definition {lit}`Ledger`: the combos that are ready, and those still to be applied.
- Definition {lit}`ReadyKept`: no ready combo is lost, and the ring never wraps onto itself.
- Definition {lit}`Orderly`: what must hold at each note of the trace.
- Theorem {lit}`overlapLoop_heads`: which pending combos a new one drops.
-/

namespace VialQmk
namespace Combos

/-! ## The ledger -/

/-- The keys and the keycode of each combo. -/
abbrev Table := List (List UInt16 × UInt16)

def Table.keys (table : Table) (comboIndex : ℕ) : List UInt16 :=
  (table[comboIndex]?.map Prod.fst).getD []

/-- Two combos share a key. -/
def Table.overlap (table : Table) (index1 index2 : ℕ) : Bool :=
  shareKey (table.keys index1) (table.keys index2)

/-- The first combo has less keys than the second one. -/
abbrev Table.Shorter (table : Table) (index1 index2 : ℕ) : Prop :=
  (table.keys index1).length < (table.keys index2).length

/-- A combo becomes ready.  It is held against the ready ones in their order: of two that
share a key the shorter one is left out. -/
def enroll (table : Table) (comboIndex : ℕ) : List ℕ → List ℕ
  | [] => [comboIndex]
  | p :: ready =>
    if table.overlap p comboIndex then
      if table.Shorter comboIndex p then p :: ready
      else if table.Shorter p comboIndex then enroll table comboIndex ready
      else p :: enroll table comboIndex ready
    else p :: enroll table comboIndex ready

/-- The combos that are ready; and while they are applied, those still to be applied. -/
structure Ledger where
  ready : List ℕ
  round : Option (List ℕ)
  lost : Bool
deriving DecidableEq

namespace Ledger

/-- Take note.  A combo is lost if it is not applied once, or if keys are dumped while it
is ready. -/
def see (table : Table) (l : Ledger) : Note → Ledger
  | .fullyPressed comboIndex => { l with ready := enroll table comboIndex l.ready }
  | .dropped comboIndex => { l with ready := l.ready.erase comboIndex }
  | .applying => { l with round := some l.ready }
  | .tapOnly comboIndex => { l with round := l.round.map (·.erase comboIndex) }
  | .activated comboIndex =>
    match l.round with
    | none => { l with ready := l.ready.erase comboIndex }
    | some round =>
      if comboIndex ∈ round then { l with round := some (round.erase comboIndex) }
      else { l with lost := true }
  | .applied =>
    { ready := []
      round := none
      lost := l.lost || l.round ≠ some [] }
  | .dumping => { l with lost := l.lost || l.ready ≠ [] }
  | _ => l

end Ledger

/-- The ledger after a trace. -/
def ledger (table : Table) : List Note → Ledger
  | [] => ⟨[], none, false⟩
  | n :: trace => (ledger table trace).see table n

/-- No ready combo is lost, and the ring never looks empty after a combo is put into it. -/
def ReadyKept (table : Table) (trace : List Note) : Prop :=
  (ledger table trace).lost = false ∧ ∀ comboIndex, Note.queued comboIndex true ∉ trace

/-! ## Orderly traces -/

/-- None of these combos is dropped for a new one. -/
def Stays (table : Table) (comboIndex : ℕ) : List ℕ → Prop
  | [] => True
  | p :: ready =>
    if table.overlap p comboIndex then table.Shorter comboIndex p
    else Stays table comboIndex ready

/-- Only combos at the head are dropped for a new one, and they are shorter. -/
def DropsHeads (table : Table) (comboIndex : ℕ) : List ℕ → Prop
  | [] => True
  | p :: ready =>
    if table.overlap p comboIndex then
      table.Shorter comboIndex p ∨ (table.Shorter p comboIndex ∧ DropsHeads table comboIndex ready)
    else Stays table comboIndex ready

/-- What must hold when the trace notes this. -/
def Note.Orderly (build : Build) (table : Table) (l : Ledger) : Note → Prop
  | .withheld _ _ room _ => room = true
  | .fullyPressed comboIndex => comboIndex ∉ l.ready ∧ DropsHeads table comboIndex l.ready ∧
      (enroll table comboIndex l.ready).length < build.comboBufferLength
  | .expired comboIndex => comboIndex ∉ l.ready
  | .pressedAgain _ => False
  | .dropped comboIndex => comboIndex ∈ l.ready → l.ready.head? = some comboIndex
  | .turnedOff => l.ready = []
  | .off clean => clean = true
  | .dumped pending => pending = false
  | _ => True

def Orderly (build : Build) (table : Table) : List Note → Prop
  | [] => True
  | n :: trace => Orderly build table trace ∧ n.Orderly build table (ledger table trace)

section Decidable

variable {build : Build} {table : Table} {comboIndex : ℕ}

instance decidableStays : (ready : List ℕ) → Decidable (Stays table comboIndex ready)
  | [] => inferInstanceAs (Decidable True)
  | p :: ready =>
    have := decidableStays ready
    inferInstanceAs (Decidable (if table.overlap p comboIndex then table.Shorter comboIndex p
      else Stays table comboIndex ready))

instance decidableDropsHeads : (ready : List ℕ) → Decidable (DropsHeads table comboIndex ready)
  | [] => inferInstanceAs (Decidable True)
  | p :: ready =>
    have := decidableDropsHeads ready
    inferInstanceAs (Decidable (if table.overlap p comboIndex then
      table.Shorter comboIndex p ∨ (table.Shorter p comboIndex ∧ DropsHeads table comboIndex ready)
        else Stays table comboIndex ready))

instance (l : Ledger) : DecidablePred (Note.Orderly build table l)
  | .withheld _ _ _ _ | .off _ | .dumped _ => inferInstanceAs (Decidable (_ = _))
  | .fullyPressed _ => inferInstanceAs (Decidable (_ ∧ _ ∧ _))
  | .expired _ => inferInstanceAs (Decidable (¬ _))
  | .pressedAgain _ => inferInstanceAs (Decidable False)
  | .dropped _ => inferInstanceAs (Decidable (_ → _))
  | .turnedOff => inferInstanceAs (Decidable (l.ready = []))
  | .queued _ _ | .tapOnly _ | .activated _ | .applying | .applied | .dumping =>
    inferInstanceAs (Decidable True)

instance decidableOrderly : (trace : List Note) → Decidable (Orderly build table trace)
  | [] => inferInstanceAs (Decidable True)
  | n :: trace =>
    have := decidableOrderly trace
    inferInstanceAs (Decidable (Orderly build table trace ∧
      n.Orderly build table (ledger table trace)))

end Decidable

/-! ## Overlapping combos -/

/-- The table of the entries. -/
def Engine.table (s : Engine) : Table :=
  s.combos.map fun combo => (combo.keys, combo.keycode)

section Overlap

variable {build : Build} {table : Table} {s : Engine} {comboIndex : ℕ}

@[simp]
theorem combos_modifyCombo (p c : ℕ) (f : Combo → Combo) (s : Engine) :
    (s.modifyCombo c f).combos[p]? = if c = p then s.combos[p]?.map f else s.combos[p]? := by
  rw [Engine.modifyCombo, List.getElem?_modify]
  split_ifs <;> simp

/-- Entries keep their keys and their keycode. -/
theorem table_modifyCombo (c : ℕ) {f : Combo → Combo}
    (hf : ∀ combo, (f combo).keys = combo.keys ∧ (f combo).keycode = combo.keycode) (s : Engine) :
    (s.modifyCombo c f).table = s.table := by
  apply List.ext_getElem?
  intro p
  simp only [Engine.table, List.getElem?_map, combos_modifyCombo]
  split_ifs
  · cases s.combos[p]? with
    | none => rfl
    | some combo => simp [hf combo]
  · rfl

theorem keys_table {combo : Combo} (h : s.combos[comboIndex]? = some combo) :
    s.table.keys comboIndex = combo.keys := by
  simp [Table.keys, Engine.table, h]

theorem keys_table_of_none (h : s.combos[comboIndex]? = none) :
    s.table.keys comboIndex = [] := by
  simp [Table.keys, Engine.table, h]

/-- The code's test, on the table. -/
theorem overlaps_eq (s : Engine) (p c : ℕ) :
    overlaps s p c =
      if s.table.overlap p c then if s.table.Shorter c p then some c else some p else none := by
  unfold overlaps Table.overlap Table.Shorter
  cases hp : s.combos[p]? with
  | none => simp [keys_table_of_none hp, shareKey]
  | some combo1 =>
    cases hc : s.combos[c]? with
    | none => simp [keys_table_of_none hc, shareKey]
    | some combo2 =>
      rw [keys_table hp, keys_table hc]

/-- A pending combo at the head of the ring is dropped. -/
def dropHead (build : Build) (s : Engine) (p : ℕ) : Engine :=
  { s.modifyCombo p Combo.disable with
    comboBufferRead := build.incrementMod s.comboBufferRead }

theorem table_dropHead (p : ℕ) : (dropHead build s p).table = s.table :=
  table_modifyCombo (f := Combo.disable) p (fun _ => ⟨rfl, rfl⟩) s

/-- Combos that stay in the ring, or one of them drops the new one. -/
theorem overlapLoop_stays {n i : ℕ} {queue : List ℕ} {drop : Option ℕ}
    (h : RingFrom build s.comboBuffer s.comboBufferWrite i queue)
    (hstays : Stays s.table comboIndex queue) (hn : queue.length ≤ n)
    (hdrop : drop ≠ some comboIndex) :
    (enroll s.table comboIndex queue = queue ∧ overlapLoop build comboIndex n i drop s =
      (s.modifyCombo comboIndex Combo.disable, some comboIndex)) ∨
    (enroll s.table comboIndex queue = queue ++ [comboIndex] ∧
      ∃ d, d ≠ some comboIndex ∧ overlapLoop build comboIndex n i drop s = (s, d)) := by
  induction queue generalizing n i drop with
  | nil =>
    have hend : i = s.comboBufferWrite := h
    refine Or.inr ⟨rfl, drop, hdrop, ?_⟩
    cases n with
    | zero => rfl
    | succ n => rw [overlapLoop, if_neg (not_not.mpr hend)]
  | cons p queue ih =>
    obtain ⟨hne, hfirst, hrest⟩ := h
    obtain ⟨n, rfl⟩ := Nat.exists_eq_succ_of_ne_zero (n := n) (by
      rintro rfl
      simp at hn)
    rw [overlapLoop, if_pos hne, hfirst]
    dsimp only
    rw [overlaps_eq]
    unfold Stays at hstays
    unfold enroll
    by_cases hover : s.table.overlap p comboIndex = true
    · rw [if_pos hover] at hstays
      left
      simp [hover, hstays]
    · rw [if_neg hover] at hstays
      simp only [hover, Bool.false_eq_true, if_false]
      have hnone : (none : Option ℕ) ≠ some comboIndex := nofun
      rcases ih hrest hstays (by simpa using hn) hnone with
        ⟨henroll, hloop⟩ | ⟨henroll, hloop⟩
      · exact Or.inl ⟨by rw [henroll], hloop⟩
      · exact Or.inr ⟨by rw [henroll]; rfl, hloop⟩

/-- Which pending combos a new one drops. -/
theorem overlapLoop_heads {n : ℕ} {queue : List ℕ} {drop : Option ℕ}
    (h : RingFrom build s.comboBuffer s.comboBufferWrite s.comboBufferRead queue)
    (hdrops : DropsHeads s.table comboIndex queue) (hn : queue.length ≤ n)
    (hdrop : drop ≠ some comboIndex) :
    ∃ heads rest, queue = heads ++ rest ∧
      ((enroll s.table comboIndex queue = rest ∧
          overlapLoop build comboIndex n s.comboBufferRead drop s =
            ((heads.foldl (dropHead build) s).modifyCombo comboIndex Combo.disable,
              some comboIndex)) ∨
        (enroll s.table comboIndex queue = rest ++ [comboIndex] ∧ ∃ d, d ≠ some comboIndex ∧
          overlapLoop build comboIndex n s.comboBufferRead drop s =
            (heads.foldl (dropHead build) s, d))) := by
  induction queue generalizing n s drop with
  | nil =>
    refine ⟨[], [], rfl, ?_⟩
    exact overlapLoop_stays h trivial hn hdrop
  | cons p queue ih =>
    obtain ⟨hne, hfirst, hrest⟩ := h
    obtain ⟨n, rfl⟩ := Nat.exists_eq_succ_of_ne_zero (n := n) (by
      rintro rfl
      simp at hn)
    unfold DropsHeads at hdrops
    by_cases hover : s.table.overlap p comboIndex = true
    · rw [if_pos hover] at hdrops
      by_cases hshort : s.table.Shorter comboIndex p
      · refine ⟨[], p :: queue, rfl, Or.inl ⟨?_, ?_⟩⟩
        · simp [enroll, hover, hshort]
        · rw [overlapLoop, if_pos hne, hfirst]
          simp [overlaps_eq, hover, hshort]
      · obtain ⟨hlong, hdrops⟩ := hdrops.resolve_left hshort
        have hpc : p ≠ comboIndex := by
          rintro rfl
          exact absurd hlong (Nat.lt_irrefl _)
        have hloop : overlapLoop build comboIndex (n + 1) s.comboBufferRead drop s =
            overlapLoop build comboIndex n (dropHead build s p).comboBufferRead (some p)
              (dropHead build s p) := by
          rw [overlapLoop, if_pos hne, hfirst]
          simp only [overlaps_eq, hover, hshort, if_true, if_false, hpc]
          exact if_pos ⟨rfl, trivial⟩
        have htable : (dropHead build s p).table = s.table := table_dropHead p
        have hsome : some p ≠ some comboIndex := by simpa using hpc
        obtain ⟨heads, rest, hqueue, hcases⟩ := ih (s := dropHead build s p) (n := n)
          hrest (by rwa [htable]) (by simpa using hn) hsome
        have henroll : enroll s.table comboIndex (p :: queue) = enroll s.table comboIndex queue := by
          simp [enroll, hover, hshort, hlong]
        rw [htable] at hcases
        refine ⟨p :: heads, rest, by rw [hqueue]; rfl, ?_⟩
        rw [henroll, hloop]
        exact hcases
    · rw [if_neg hover] at hdrops
      refine ⟨[], p :: queue, rfl, ?_⟩
      have hstays : Stays s.table comboIndex (p :: queue) := by
        unfold Stays
        rwa [if_neg hover]
      exact overlapLoop_stays ⟨hne, hfirst, hrest⟩ hstays hn hdrop

end Overlap

end Combos
end VialQmk
