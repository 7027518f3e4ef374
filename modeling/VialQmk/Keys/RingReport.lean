import VialQmk.Library.Runs
import Mathlib.Data.Fintype.Card
import Mathlib.Data.Fintype.Pi
import Mathlib.Data.List.DropRight
import Mathlib.Data.List.Nodup
import Mathlib.Logic.Function.Basic

/-!
# Keys - the ring buffered report

With {lit}`RING_BUFFERED_6KRO_REPORT_ENABLE` the keys of the report are a circular buffer, from
the oldest key to the latest one.  A key that is released leaves a gap, unless it was the last
one, and the gaps are closed when the buffer is full.

Main results:

- Theorem {lit}`ringReport_iff`: the report is a list of keys in the order of their presses, as
  long as a report is cleared only when it has no keys.
-/

namespace VialQmk
namespace Keys
namespace RingReport

open Function (update)

/-- {lit}`KEYBOARD_REPORT_KEYS` -/
abbrev keyboardReportKeys : ℕ := 6

/-- A place in the report. -/
abbrev Place := Fin keyboardReportKeys

/-- {lit}`keyboard_report->keys` and the variables of the buffer.  The counter is only counted
up and down and compared with zero. -/
structure Report where
  keys : Place → UInt8
  cbHead : Place
  cbTail : Place
  cbCount : UInt8
deriving DecidableEq

/-- {lit}`RO_ADD` -/
def roAdd (a : Place) (b : ℕ) : Place :=
  ⟨(a + b) % keyboardReportKeys, Nat.mod_lt _ (by decide)⟩

/-- {lit}`RO_SUB`, of at most a turn -/
def roSub (a : Place) (b : ℕ) : Place :=
  ⟨(a + keyboardReportKeys - b) % keyboardReportKeys, Nat.mod_lt _ (by decide)⟩

/-- The places that {lit}`do .. i = RO_INC(i); while (i != cb_tail)` visits. -/
def visited (cbTail : Place) : ℕ → Place → List Place
  | 0, _ => []
  | fuel + 1, i => i :: if roAdd i 1 = cbTail then [] else visited cbTail fuel (roAdd i 1)

/-- The variables of the shift to the left. -/
structure Shift where
  keys : Place → UInt8
  empty : Place
  offset : ℕ

/-- A round of the shift to the left. -/
def shiftKey (s : Shift) (i : Place) : Shift :=
  if s.keys i ≠ 0 then
    { s with keys := update (update s.keys s.empty (s.keys i)) i 0, empty := roAdd s.empty 1 }
  else { s with offset := s.offset + 1 }

namespace Report

/-- The buffer is full: the oldest key leaves it, or the gaps are closed. -/
def makeRoom (empty : Option Place) (r : Report) : Report :=
  match empty with
  | none => { r with cbHead := roAdd r.cbHead 1, cbCount := r.cbCount - 1 }
  | some empty =>
    let s := (visited r.cbTail keyboardReportKeys (roAdd empty 1)).foldl shiftKey
      ⟨r.keys, empty, 1⟩
    { r with keys := s.keys, cbTail := roSub r.cbTail s.offset }

/-- A key at the tail. -/
def addToTail (code : UInt8) (r : Report) : Report :=
  { r with
    keys := update r.keys r.cbTail code
    cbTail := roAdd r.cbTail 1
    cbCount := r.cbCount + 1 }

/-- {lit}`add_key_byte` -/
def addKeyByte (code : UInt8) (r : Report) : Report :=
  if r.cbCount ≠ 0 then
    let places := visited r.cbTail keyboardReportKeys r.cbHead
    if places.any fun i => r.keys i = code then r
    else if r.cbTail = r.cbHead then
      (r.makeRoom (places.find? fun i => r.keys i = 0)).addToTail code
    else r.addToTail code
  else r.addToTail code

/-- The tail goes back behind the next key. -/
def retreat (keys : Place → UInt8) (cbHead : Place) : ℕ → Place → Place
  | 0, cbTail => cbTail
  | fuel + 1, cbTail =>
    let cbTail := roSub cbTail 1
    if keys (roSub cbTail 1) ≠ 0 then cbTail
    else if cbTail ≠ cbHead then retreat keys cbHead fuel cbTail
    else cbTail

/-- {lit}`del_key_byte` -/
def delKeyByte (code : UInt8) (r : Report) : Report :=
  if r.cbCount ≠ 0 then
    match (visited r.cbTail keyboardReportKeys r.cbHead).find? fun i => r.keys i = code with
    | none => r
    | some i =>
      let r := { r with keys := update r.keys i 0, cbCount := r.cbCount - 1 }
      let r := if r.cbCount = 0 then { r with cbTail := 0, cbHead := 0 } else r
      if i = roSub r.cbTail 1 then
        { r with cbTail := retreat r.keys r.cbHead keyboardReportKeys r.cbTail }
      else r
  else r

/-- {lit}`clear_keys_from_report` -/
def clearKeys (r : Report) : Report :=
  { r with keys := fun _ => 0 }

/-- A report without keys. -/
def empty : Report :=
  ⟨fun _ => 0, 0, 0, 0⟩

end Report

/-! ## What the buffer is for -/

/-- A call, with a keycode that is not zero. -/
inductive Input
  | add (code : UInt8) (hcode : code ≠ 0)
  | del (code : UInt8) (hcode : code ≠ 0)
  | clear

/-- The keys that are down, the oldest one first: the list that the report is to show. -/
def stepList (keys : List UInt8) : Input → List UInt8
  | .add code _ =>
    if code ∈ keys then keys
    else if keys.length = keyboardReportKeys then keys.tail ++ [code]
    else keys ++ [code]
  | .del code _ => keys.erase code
  | .clear => []

/-- A step of the report and of the list. -/
def step (s : Report × List UInt8) (i : Input) : Report × List UInt8 :=
  (match i with
    | .add code _ => s.1.addKeyByte code
    | .del code _ => s.1.delKeyByte code
    | .clear => s.1.clearKeys,
    stepList s.2 i)

/-- The report shows the keys of the list, and it counts them. -/
structure Shows (r : Report) (keys : List UInt8) : Prop where
  mem_iff : ∀ code ≠ 0, code ∈ keys ↔ ∃ i, r.keys i = code
  count : r.cbCount.toNat = (Finset.univ.filter fun i => r.keys i ≠ 0).card
  length : r.cbCount.toNat = keys.length
  bounded : keys.length ≤ keyboardReportKeys
  nodup : keys.Nodup

/-- A report is cleared only when it has no keys. -/
def ClearsEmpty (s : Report × List UInt8) : Input → Prop
  | .clear => ∀ i, s.1.keys i = 0
  | _ => True

/-! ## Places -/

theorem roAdd_zero (a : Place) : roAdd a 0 = a := by
  apply Fin.ext
  exact Nat.mod_eq_of_lt a.isLt

theorem roAdd_roAdd (a : Place) (b c : ℕ) : roAdd (roAdd a b) c = roAdd a (b + c) := by
  apply Fin.ext
  simp only [roAdd, keyboardReportKeys] at *
  omega

theorem roAdd_turn (a : Place) : roAdd a keyboardReportKeys = a := by
  apply Fin.ext
  have hlt := a.isLt
  simp only [roAdd, keyboardReportKeys] at *
  omega

theorem roSub_roAdd (a : Place) {b c : ℕ} (hle : c ≤ b) (hturn : c ≤ keyboardReportKeys) :
    roSub (roAdd a b) c = roAdd a (b - c) := by
  apply Fin.ext
  simp only [roAdd, roSub, keyboardReportKeys] at *
  omega

theorem roAdd_inj (a : Place) {b c : ℕ} (hb : b < keyboardReportKeys)
    (hc : c < keyboardReportKeys) : roAdd a b = roAdd a c ↔ b = c := by
  rw [Fin.ext_iff]
  have hlt := a.isLt
  simp only [roAdd, keyboardReportKeys] at *
  omega

theorem roAdd_eq_self (a : Place) {b : ℕ} (hpos : 0 < b) (hle : b ≤ keyboardReportKeys) :
    roAdd a b = a ↔ b = keyboardReportKeys := by
  rw [Fin.ext_iff]
  have hlt := a.isLt
  simp only [roAdd, keyboardReportKeys] at *
  omega

/-- Every place is some steps away from any other one. -/
theorem exists_roAdd (a i : Place) : ∃ j < keyboardReportKeys, roAdd a j = i := by
  refine ⟨(i + keyboardReportKeys - a) % keyboardReportKeys, Nat.mod_lt _ (by decide), ?_⟩
  apply Fin.ext
  have hi := i.isLt
  have ha := a.isLt
  simp only [roAdd, keyboardReportKeys] at *
  omega

/-- The loop goes from a place up to the tail. -/
theorem visited_eq {length fuel : ℕ} (i : Place) (hpos : 0 < length) (hfuel : length ≤ fuel)
    (hturn : length ≤ keyboardReportKeys) :
    visited (roAdd i length) fuel i = (List.range length).map (roAdd i) := by
  induction length generalizing i fuel with
  | zero => omega
  | succ length ih =>
    cases fuel with
    | zero => omega
    | succ fuel =>
      rw [visited]
      by_cases hlast : length = 0
      · subst hlast
        simp [roAdd_zero]
      · have hne : roAdd i 1 ≠ roAdd i (length + 1) := by
          rw [Ne, Fin.ext_iff]
          simp only [roAdd, keyboardReportKeys] at *
          omega
        have hrest := @ih fuel (roAdd i 1) (by omega) (by omega) (by omega)
        rw [roAdd_roAdd, Nat.add_comm 1 length] at hrest
        rw [if_neg hne, hrest, List.range_succ_eq_map, List.map_cons, List.map_map, roAdd_zero]
        congr 1
        apply List.map_congr_left
        intro j _
        rw [roAdd_roAdd, Function.comp_apply, Nat.succ_eq_add_one, Nat.add_comm]

/-! ## The buffer as a list -/

/-- The keys, from a place around to it. -/
def ring (keys : Place → UInt8) (head : Place) : List UInt8 :=
  (List.range keyboardReportKeys).map fun j => keys (roAdd head j)

@[simp]
theorem length_ring (keys : Place → UInt8) (head : Place) :
    (ring keys head).length = keyboardReportKeys := by
  simp [ring]

theorem ring_getElem (keys : Place → UInt8) (head : Place) {j : ℕ}
    (hj : j < (ring keys head).length) : (ring keys head)[j] = keys (roAdd head j) := by
  simp [ring]

theorem ring_update (keys : Place → UInt8) (head : Place) {p : ℕ} (hp : p < keyboardReportKeys)
    (x : UInt8) : ring (update keys (roAdd head p) x) head = (ring keys head).set p x := by
  apply List.ext_getElem
  · simp
  · intro j hj _
    rw [length_ring] at hj
    rw [ring_getElem, List.getElem_set]
    by_cases heq : p = j
    · rw [if_pos heq, heq, Function.update_self]
    · rw [if_neg heq, ring_getElem, Function.update_of_ne]
      rwa [Ne, roAdd_inj head hj hp, eq_comm]

theorem mem_ring (keys : Place → UInt8) (head : Place) (code : UInt8) :
    code ∈ ring keys head ↔ ∃ i, keys i = code := by
  rw [ring, List.mem_map]
  constructor
  · rintro ⟨j, -, hj⟩
    exact ⟨_, hj⟩
  · rintro ⟨i, hi⟩
    rcases exists_roAdd head i with ⟨j, hj, rfl⟩
    exact ⟨j, List.mem_range.mpr hj, hi⟩

/-- The next place around. -/
theorem ring_next (keys : Place → UInt8) (head : Place) :
    ring keys (roAdd head 1) = (ring keys head).tail ++ [keys head] := by
  have hshift : ∀ j, roAdd (roAdd head 1) j = roAdd head (j + 1) := by
    intro j
    rw [roAdd_roAdd, Nat.add_comm]
  have hturn := roAdd_turn head
  simp only [ring, hshift]
  simp only [keyboardReportKeys, List.range_succ, List.range_zero, List.nil_append,
    List.map_cons, List.map_nil, List.cons_append, List.tail_cons] at hturn ⊢
  rw [hturn]

/-- The keys of a report and its gaps: from the head up to the tail, the rest is zero. -/
structure Holds (r : Report) (content : List UInt8) : Prop where
  ring_eq : ring r.keys r.cbHead =
    content ++ List.replicate (keyboardReportKeys - content.length) 0
  length_le : content.length ≤ keyboardReportKeys
  tail_eq : r.cbTail = roAdd r.cbHead content.length
  last_ne : ∀ h : content ≠ [], content.getLast h ≠ 0

/-- The report holds the keys of the list in their order, and it counts them. -/
structure Represents (r : Report) (keys content : List UInt8) : Prop extends
    Holds r content where
  keys_eq : content.filter (· ≠ 0) = keys
  nodup : keys.Nodup
  count_eq : r.cbCount.toNat = keys.length

namespace Represents

variable {r : Report} {keys content : List UInt8}

theorem filter_ring (h : Represents r keys content) :
    (ring r.keys r.cbHead).filter (· ≠ 0) = keys := by
  rw [h.ring_eq, List.filter_append, h.keys_eq, List.filter_replicate]
  simp

theorem mem_keys (h : Represents r keys content) {code : UInt8} (hcode : code ≠ 0) :
    code ∈ keys ↔ code ∈ content := by
  rw [← h.keys_eq, List.mem_filter]
  simp [hcode]

theorem length_keys_le (h : Represents r keys content) : keys.length ≤ content.length := by
  rw [← h.keys_eq]
  exact List.length_filter_le _ _

theorem count_eq_zero (h : Represents r keys content) : r.cbCount = 0 ↔ keys = [] := by
  rw [← List.length_eq_zero_iff, ← h.count_eq, ← UInt8.toNat_inj, UInt8.toNat_zero]

/-- Without keys there are no gaps either. -/
theorem content_eq_nil (h : Represents r keys content) (hkeys : keys = []) : content = [] := by
  by_contra hne
  have hmem : content.getLast hne ∈ keys :=
    (h.mem_keys (h.last_ne hne)).mpr (List.getLast_mem hne)
  rw [hkeys] at hmem
  exact List.not_mem_nil hmem

theorem content_ne_nil (h : Represents r keys content) (hkeys : keys ≠ []) : content ≠ [] := by
  intro hnil
  apply hkeys
  rw [← h.keys_eq, hnil, List.filter_nil]

end Represents

/-- The places with a key, by the keys around a place. -/
theorem card_keys (keys : Place → UInt8) (head : Place) :
    (Finset.univ.filter fun i => keys i ≠ 0).card =
      ((ring keys head).filter (· ≠ 0)).length := by
  have hnodup : ((List.range keyboardReportKeys).map (roAdd head)).Nodup := by
    apply List.Nodup.map_on _ List.nodup_range
    intro b hb c hc heq
    exact (roAdd_inj head (List.mem_range.mp hb) (List.mem_range.mp hc)).mp heq
  have hplaces : (Finset.univ.filter fun i => keys i ≠ 0) =
      (((List.range keyboardReportKeys).map (roAdd head)).filter fun i => keys i ≠ 0).toFinset := by
    ext i
    rcases exists_roAdd head i with ⟨j, hj, rfl⟩
    simp only [Finset.mem_filter, Finset.mem_univ, true_and, List.mem_toFinset, List.mem_filter,
      decide_eq_true_eq]
    constructor
    · intro hne
      exact ⟨List.mem_map_of_mem (List.mem_range.mpr hj), hne⟩
    · rintro ⟨-, hne⟩
      exact hne
  rw [hplaces, List.toFinset_card_of_nodup (hnodup.filter _), ring, List.filter_map,
    List.filter_map, List.length_map, List.length_map]
  rfl

/-- A report that represents a list shows it. -/
theorem Represents.shows {r : Report} {keys content : List UInt8}
    (h : Represents r keys content) : Shows r keys where
  mem_iff code hcode := by
    rw [← mem_ring r.keys r.cbHead, ← h.filter_ring, List.mem_filter]
    simp [hcode]
  count := by rw [card_keys r.keys r.cbHead, h.filter_ring, h.count_eq]
  length := h.count_eq
  bounded := h.length_keys_le.trans h.length_le
  nodup := h.nodup

/-! ## The search from the head -/

section Search

variable {r : Report} {content : List UInt8}

theorem Holds.keys_roAdd (h : Holds r content) {j : ℕ} (hj : j < content.length) :
    r.keys (roAdd r.cbHead j) = content[j] := by
  have hle := h.length_le
  have hring : j < (ring r.keys r.cbHead).length := by
    rw [length_ring]
    omega
  rw [← ring_getElem r.keys r.cbHead hring]
  simp only [h.ring_eq]
  exact List.getElem_append_left hj

theorem Holds.visited (h : Holds r content) (hne : content ≠ []) :
    visited r.cbTail keyboardReportKeys r.cbHead =
      (List.range content.length).map (roAdd r.cbHead) := by
  rw [h.tail_eq]
  exact visited_eq _ (List.length_pos_iff.mpr hne) h.length_le h.length_le

theorem Holds.map_visited (h : Holds r content) (hne : content ≠ []) :
    (RingReport.visited r.cbTail keyboardReportKeys r.cbHead).map r.keys = content := by
  rw [h.visited hne, List.map_map]
  apply List.ext_getElem
  · simp
  · intro j _ hj
    rw [List.getElem_map, List.getElem_range]
    exact h.keys_roAdd hj

theorem Holds.any_iff (h : Holds r content) (hne : content ≠ []) (code : UInt8) :
    ((RingReport.visited r.cbTail keyboardReportKeys r.cbHead).any
      fun i => r.keys i = code) = true ↔ code ∈ content := by
  conv_rhs => rw [← h.map_visited hne, List.mem_map]
  simp [List.any_eq_true]

/-- The first place whose key passes a test. -/
theorem Holds.find_eq {A B : List UInt8} {x : UInt8} (h : Holds r (A ++ x :: B))
    (p : UInt8 → Bool) (hA : ∀ a ∈ A, p a = false) (hx : p x = true) :
    (RingReport.visited r.cbTail keyboardReportKeys r.cbHead).find? (fun i => p (r.keys i)) =
      some (roAdd r.cbHead A.length) := by
  have hlength : (A ++ x :: B).length = A.length + (B.length + 1) := by simp
  rw [h.visited (by simp), hlength, List.range_add, List.map_append, List.range_succ_eq_map,
    List.find?_eq_some_iff_append]
  constructor
  · rw [h.keys_roAdd (by simp)]
    simpa using hx
  · refine ⟨_, _, by rw [List.map_cons, List.map_cons, Nat.add_zero], ?_⟩
    intro i hi
    rcases List.mem_map.mp hi with ⟨j, hj, rfl⟩
    have hjA : j < A.length := List.mem_range.mp hj
    rw [h.keys_roAdd (by simp; omega), List.getElem_append_left hjA,
      hA _ (List.getElem_mem hjA)]
    rfl

theorem Holds.find_eq_none (h : Holds r content) (hne : content ≠ []) (p : UInt8 → Bool)
    (hall : ∀ a ∈ content, p a = false) :
    (RingReport.visited r.cbTail keyboardReportKeys r.cbHead).find? (fun i => p (r.keys i)) =
      none := by
  rw [List.find?_eq_none]
  intro i hi
  have hmem : r.keys i ∈ content := by
    rw [← h.map_visited hne]
    exact List.mem_map_of_mem hi
  simp [hall _ hmem]

end Search

/-! ## A key at the tail -/

theorem ring_addToTail {r : Report} {A B : List UInt8} {x : UInt8} (code : UInt8)
    (hring : ring r.keys r.cbHead = A ++ x :: B) (htail : r.cbTail = roAdd r.cbHead A.length) :
    ring (r.addToTail code).keys r.cbHead = A ++ code :: B := by
  have hlength : A.length < keyboardReportKeys := by
    rw [← length_ring r.keys r.cbHead, hring, List.length_append, List.length_cons]
    omega
  simp only [Report.addToTail]
  rw [htail, ring_update _ _ hlength, hring, List.set_append_right _ _ (Nat.le_refl _),
    Nat.sub_self, List.set_cons_zero]

/-- A key that the report does not have yet is its latest one. -/
theorem Represents.addToTail {r : Report} {keys content : List UInt8} {code : UInt8}
    (h : Represents r keys content) (hcode : code ≠ 0) (hnew : code ∉ keys)
    (hroom : content.length < keyboardReportKeys) :
    Represents (r.addToTail code) (keys ++ [code]) (content ++ [code]) where
  ring_eq := by
    have hzeros : List.replicate (keyboardReportKeys - content.length) (0 : UInt8) =
        0 :: List.replicate (keyboardReportKeys - (content ++ [code]).length) 0 := by
      rw [← List.replicate_succ, List.length_append, List.length_singleton]
      congr 1
      omega
    have hring := h.ring_eq
    rw [hzeros] at hring
    rw [List.append_assoc, List.singleton_append]
    exact ring_addToTail code hring h.tail_eq
  length_le := by
    rw [List.length_append, List.length_singleton]
    omega
  tail_eq := by
    simp only [Report.addToTail]
    rw [h.tail_eq, roAdd_roAdd, List.length_append, List.length_singleton]
  last_ne := by simpa using hcode
  keys_eq := by
    rw [List.filter_append, h.keys_eq]
    simp [hcode]
  nodup := by
    rw [List.nodup_append]
    refine ⟨h.nodup, List.nodup_singleton _, ?_⟩
    intro a ha b hb heq
    rw [List.mem_singleton.mp hb] at heq
    exact hnew (heq ▸ ha)
  count_eq := by
    have hcount := h.count_eq
    have hle := h.length_keys_le
    simp only [Report.addToTail, List.length_append, List.length_singleton, keyboardReportKeys]
      at hroom ⊢
    rw [UInt8.toNat_add, hcount, UInt8.toNat_one]
    omega

/-- The oldest key leaves a report that is full, and a new one enters. -/
theorem Represents.evict {r : Report} {key code : UInt8} {rest : List UInt8}
    (h : Represents r (key :: rest) (key :: rest)) (hcode : code ≠ 0)
    (hnew : code ∉ key :: rest) (hfull : rest.length + 1 = keyboardReportKeys) :
    Represents ((r.makeRoom none).addToTail code) (rest ++ [code]) (rest ++ [code]) where
  ring_eq := by
    have hring := h.ring_eq
    rw [List.length_cons, hfull, Nat.sub_self, List.replicate_zero, List.append_nil] at hring
    have hnext := ring_next r.keys r.cbHead
    rw [hring, List.tail_cons] at hnext
    rw [List.length_append, List.length_singleton, hfull, Nat.sub_self, List.replicate_zero,
      List.append_nil]
    apply ring_addToTail code hnext
    simp only [Report.makeRoom]
    rw [h.tail_eq, roAdd_roAdd, List.length_cons, Nat.add_comm]
  length_le := by
    rw [List.length_append, List.length_singleton]
    omega
  tail_eq := by
    simp only [Report.addToTail, Report.makeRoom]
    rw [h.tail_eq, List.length_append, List.length_singleton, List.length_cons, hfull,
      roAdd_turn, roAdd_turn]
  last_ne := by simpa using hcode
  keys_eq := by
    have hkeys := h.keys_eq
    rw [List.filter_eq_self] at hkeys
    rw [List.filter_eq_self]
    intro a ha
    rcases List.mem_append.mp ha with ha | ha
    · exact hkeys a (List.mem_cons_of_mem key ha)
    · rw [List.mem_singleton.mp ha]
      simpa using hcode
  nodup := by
    have hnodup := (List.nodup_cons.mp h.nodup).2
    rw [List.nodup_append]
    refine ⟨hnodup, List.nodup_singleton _, ?_⟩
    intro a ha b hb heq
    rw [List.mem_singleton.mp hb] at heq
    exact hnew (List.mem_cons_of_mem key (heq ▸ ha))
  count_eq := by
    have hcount := h.count_eq
    simp only [Report.addToTail, Report.makeRoom, List.length_append, List.length_cons]
      at hcount ⊢
    rw [UInt8.sub_add_cancel]
    exact hcount

/-! ## The gaps are closed -/

/-- The shift moves the keys of the rest in front of the gap. -/
theorem shift_foldl (head : Place) (rest : List UInt8) :
    ∀ (front : List UInt8) (gap : ℕ) (s : Shift),
      ring s.keys head = front ++ List.replicate (gap + 1) 0 ++ rest →
      s.empty = roAdd head front.length → s.offset = gap + 1 →
      ∃ s', ((List.range rest.length).map fun j => roAdd head (front.length + (gap + 1) + j)).foldl
          shiftKey s = s' ∧
        ring s'.keys head = front ++ rest.filter (· ≠ 0) ++ List.replicate s'.offset 0 := by
  induction rest with
  | nil =>
    intro front gap s hring _ hoffset
    refine ⟨s, rfl, ?_⟩
    rw [hring, hoffset, List.append_nil, List.filter_nil, List.append_nil]
  | cons x rest ih =>
    intro front gap s hring hempty hoffset
    have hlength : front.length + (gap + 1) + (rest.length + 1) = keyboardReportKeys := by
      rw [← length_ring s.keys head, hring]
      simp only [List.length_append, List.length_replicate, List.length_cons]
    have hx : s.keys (roAdd head (front.length + (gap + 1))) = x := by
      have hring' := ring_getElem s.keys head (j := front.length + (gap + 1)) (by simp; omega)
      rw [← hring']
      simp [hring]
    rw [List.length_cons, List.range_succ_eq_map, List.map_cons, List.foldl_cons, Nat.add_zero,
      List.map_map]
    by_cases hzero : x = 0
    · -- Another gap.
      subst hzero
      rcases ih front (gap + 1) (shiftKey s (roAdd head (front.length + (gap + 1))))
        (by simp [shiftKey, hx, hring, List.replicate_succ']) (by simpa [shiftKey, hx] using hempty)
        (by simp [shiftKey, hx, hoffset]) with ⟨s', hs', hring'⟩
      refine ⟨s', ?_, by simpa using hring'⟩
      rw [← hs']
      congr 1
      apply List.map_congr_left
      intro j _
      rw [Function.comp_apply]
      congr 1
      omega
    · -- The key moves to the front and leaves a gap behind.
      have hplace : front.length < keyboardReportKeys := by omega
      have hring' : ring (shiftKey s (roAdd head (front.length + (gap + 1)))).keys head =
          front ++ [x] ++ List.replicate (gap + 1) 0 ++ rest := by
        have hset : (front ++ List.replicate (gap + 1) 0 ++ x :: rest).set front.length x =
            front ++ (x :: List.replicate gap 0) ++ x :: rest := by
          simp [List.replicate_succ]
        have hset' : (front ++ (x :: List.replicate gap 0) ++ x :: rest).set
            (front.length + (gap + 1)) 0 = front ++ (x :: List.replicate gap 0) ++ 0 :: rest := by
          rw [List.set_append_right _ _ (by simp)]
          simp
        simp only [shiftKey, hx, ne_eq, hzero, not_false_eq_true, if_true]
        rw [ring_update _ _ (by omega), hempty, ring_update _ _ hplace, hring, hset, hset',
          List.replicate_succ']
        simp
      rcases ih (front ++ [x]) gap (shiftKey s (roAdd head (front.length + (gap + 1)))) hring'
        (by simp [shiftKey, hx, hzero, hempty, roAdd_roAdd])
        (by simp [shiftKey, hx, hzero, hoffset]) with ⟨s', hs', hends⟩
      refine ⟨s', ?_, by simpa [hzero] using hends⟩
      rw [← hs']
      congr 1
      apply List.map_congr_left
      intro j _
      rw [Function.comp_apply, List.length_append, List.length_singleton]
      congr 1
      omega

/-- The gaps of a report that is full are closed. -/
theorem Represents.closeGaps {r : Report} {keys A B : List UInt8}
    (h : Represents r keys (A ++ 0 :: B)) (hA : ∀ a ∈ A, a ≠ 0)
    (hfull : (A ++ 0 :: B).length = keyboardReportKeys) :
    Represents (r.makeRoom (some (roAdd r.cbHead A.length))) keys keys := by
  have hB : B ≠ [] := by
    rintro rfl
    simpa using h.last_ne (by simp)
  have hlengths : A.length + 1 + B.length = keyboardReportKeys := by
    rw [← hfull, List.length_append, List.length_cons]
    omega
  have hplaces : visited r.cbTail keyboardReportKeys (roAdd (roAdd r.cbHead A.length) 1) =
      (List.range B.length).map fun j => roAdd r.cbHead (A.length + (0 + 1) + j) := by
    rw [h.tail_eq, hfull, ← hlengths, roAdd_roAdd, ← roAdd_roAdd r.cbHead (A.length + 1),
      visited_eq _ (List.length_pos_iff.mpr hB) (by omega) (by omega)]
    apply List.map_congr_left
    intro j _
    rw [roAdd_roAdd]
  have hring : ring r.keys r.cbHead = A ++ List.replicate (0 + 1) 0 ++ B := by
    rw [h.ring_eq, hfull, Nat.sub_self, List.replicate_zero, List.append_nil]
    simp
  rcases shift_foldl r.cbHead B A 0 ⟨r.keys, roAdd r.cbHead A.length, 1⟩ hring rfl rfl with
    ⟨s, hs, hends⟩
  have hfilter : A.filter (· ≠ 0) = A := List.filter_eq_self.mpr (by simpa using hA)
  have hkeys : A ++ B.filter (· ≠ 0) = keys := by
    rw [← h.keys_eq, List.filter_append, List.filter_cons_of_neg (by simp), hfilter]
  rw [hkeys] at hends
  have hlength : keys.length + s.offset = keyboardReportKeys := by
    rw [← length_ring s.keys r.cbHead, hends, List.length_append, List.length_replicate]
  have hroom : r.makeRoom (some (roAdd r.cbHead A.length)) =
      { r with keys := s.keys, cbTail := roSub r.cbTail s.offset } := by
    simp only [Report.makeRoom]
    rw [hplaces, hs]
  have hoffset : keyboardReportKeys - keys.length = s.offset := by omega
  have hnz : ∀ a ∈ keys, a ≠ 0 := by
    intro a ha
    rw [← h.keys_eq, List.mem_filter] at ha
    simpa using ha.2
  rw [hroom]
  exact {
    ring_eq := by rw [hoffset]; exact hends
    length_le := by omega
    tail_eq := by
      change roSub r.cbTail s.offset = roAdd r.cbHead keys.length
      rw [h.tail_eq, hfull, roSub_roAdd _ (by omega) (by omega)]
      congr 1
      omega
    last_ne := fun hne => hnz _ (List.getLast_mem hne)
    keys_eq := List.filter_eq_self.mpr (by simpa using hnz)
    nodup := h.nodup
    count_eq := h.count_eq }

/-- {lit}`add_key_byte` adds a key to the list. -/
theorem Represents.addKeyByte {r : Report} {keys content : List UInt8} {code : UInt8}
    (h : Represents r keys content) (hcode : code ≠ 0) :
    ∃ content', Represents (r.addKeyByte code) (stepList keys (.add code hcode)) content' := by
  by_cases hkeys : keys = []
  · have hcontent := h.content_eq_nil hkeys
    subst hkeys hcontent
    refine ⟨[] ++ [code], ?_⟩
    rw [Report.addKeyByte, if_neg (by simpa using h.count_eq_zero)]
    exact h.addToTail hcode List.not_mem_nil (by decide)
  · have hne := h.content_ne_nil hkeys
    rw [Report.addKeyByte, if_pos (by rwa [Ne, h.count_eq_zero])]
    dsimp only [stepList]
    by_cases hmem : code ∈ keys
    · have hany := (h.any_iff hne code).mpr ((h.mem_keys hcode).mp hmem)
      rw [if_pos hany, if_pos hmem]
      exact ⟨content, h⟩
    · have hany := mt (h.any_iff hne code).mp (mt (h.mem_keys hcode).mpr hmem)
      have hlength := h.length_keys_le
      have hle := h.length_le
      have hturn : r.cbTail = r.cbHead ↔ content.length = keyboardReportKeys := by
        rw [h.tail_eq]
        exact roAdd_eq_self _ (List.length_pos_iff.mpr hne) hle
      rw [if_neg hany, if_neg hmem]
      by_cases hfull : content.length = keyboardReportKeys
      · rw [if_pos (hturn.mpr hfull)]
        by_cases hzero : (0 : UInt8) ∈ content
        · -- The gaps are closed.
          rcases List.eq_append_cons_of_mem hzero with ⟨A, B, rfl, hA⟩
          have hfind := h.find_eq (fun x => x = 0)
            (fun a ha => by simpa using fun heq : a = 0 => hA (heq ▸ ha)) (by simp)
          have hclosed := h.closeGaps (fun a ha heq => hA (heq ▸ ha)) hfull
          have hroom : keys.length < keyboardReportKeys := by
            rw [← hfull, ← h.keys_eq, List.filter_append, List.filter_cons_of_neg (by simp)]
            have hA' := List.length_filter_le (· ≠ 0) A
            have hB' := List.length_filter_le (· ≠ 0) B
            simp only [List.length_append, List.length_cons]
            omega
          rw [if_neg (by omega)]
          refine ⟨keys ++ [code], ?_⟩
          simp only [hfind]
          exact hclosed.addToTail hcode hmem hroom
        · -- The oldest key leaves.
          have hfind := h.find_eq_none hne (fun x => x = 0)
            (fun a ha => by simpa using fun heq : a = 0 => hzero (heq ▸ ha))
          have hsame : content = keys := by
            rw [← h.keys_eq, eq_comm, List.filter_eq_self]
            intro a ha
            simpa using fun heq : a = 0 => hzero (heq ▸ ha)
          subst hsame
          rw [if_pos hfull]
          cases content with
          | nil => exact absurd rfl hne
          | cons key rest =>
            refine ⟨rest ++ [code], ?_⟩
            simp only [hfind]
            exact h.evict hcode hmem hfull
      · rw [if_neg (mt hturn.mp hfull), if_neg (by omega)]
        exact ⟨content ++ [code], h.addToTail hcode hmem (by omega)⟩

/-! ## A key leaves -/

/-- The tail goes back behind the last key. -/
theorem retreat_eq (keys : Place → UInt8) (head : Place) (content : List UInt8) :
    ∀ fuel, content <+: ring keys head → content.length < keyboardReportKeys →
      content.length ≤ fuel → (∃ a ∈ content, a ≠ 0) →
      Report.retreat keys head fuel (roAdd head (content.length + 1)) =
        roAdd head (content.rdropWhile (· = 0)).length := by
  induction content using List.reverseRecOn with
  | nil =>
    intro fuel _ _ _ hex
    rcases hex with ⟨a, ha, -⟩
    exact absurd ha List.not_mem_nil
  | append_singleton content x ih =>
    intro fuel hprefix hlt hle hex
    rw [List.length_append, List.length_singleton] at hlt hle ⊢
    cases fuel with
    | zero => omega
    | succ fuel =>
      have hlast : keys (roAdd head content.length) = x := by
        have hget := hprefix.getElem (i := content.length) (by simp)
        rw [ring_getElem] at hget
        rw [← hget]
        simp
      rw [Report.retreat, roSub_roAdd _ (by omega) (by decide), Nat.add_sub_cancel,
        roSub_roAdd _ (by omega) (by decide), Nat.add_sub_cancel, hlast]
      by_cases hzero : x = 0
      · subst hzero
        have hne : roAdd head (content.length + 1) ≠ head := by
          rw [Ne, roAdd_eq_self _ (by omega) (by omega)]
          omega
        have hex' : ∃ a ∈ content, a ≠ 0 := by
          rcases hex with ⟨a, ha, hane⟩
          rcases List.mem_append.mp ha with ha | ha
          · exact ⟨a, ha, hane⟩
          · exact absurd (List.mem_singleton.mp ha) hane
        rw [if_neg (by simp), if_pos hne, List.rdropWhile_concat_pos _ _ _ (by simp)]
        exact ih fuel ((List.prefix_append _ _).trans hprefix) (by omega) (by omega) hex'
      · rw [if_pos hzero, List.rdropWhile_concat_neg _ _ _ (by simpa using hzero),
          List.length_append, List.length_singleton]

/-- The zeros behind the last key. -/
theorem eq_rdropWhile_append (content : List UInt8) :
    content = content.rdropWhile (· = 0) ++
      List.replicate (content.length - (content.rdropWhile (· = 0)).length) 0 := by
  have hsplit := List.rdropWhile_append_rtakeWhile (p := fun x : UInt8 => x = 0) (l := content)
  have hzeros : content.rtakeWhile (· = 0) =
      List.replicate (content.rtakeWhile (· = 0)).length 0 := by
    apply List.eq_replicate_of_mem
    intro a ha
    simpa using List.mem_rtakeWhile_imp ha
  have hlength : (content.rtakeWhile (· = 0)).length =
      content.length - (content.rdropWhile (· = 0)).length := by
    have hsum := congrArg List.length hsplit
    rw [List.length_append] at hsum
    omega
  rw [← hlength, ← hzeros, hsplit]

theorem filter_rdropWhile (content : List UInt8) :
    (content.rdropWhile (· = 0)).filter (· ≠ 0) = content.filter (· ≠ 0) := by
  conv_rhs => rw [eq_rdropWhile_append content, List.filter_append, List.filter_replicate]
  simp

/-- Without keys the tail goes all the way round. -/
theorem retreat_zero : Report.retreat (fun _ => 0) 0 keyboardReportKeys 0 = 0 := by
  decide

/-- The report when its last key has left. -/
theorem represents_zero {r : Report} (hkeys : ∀ i, r.keys i = 0) (hhead : r.cbTail = r.cbHead)
    (hcount : r.cbCount = 0) : Represents r [] [] where
  ring_eq := by
    rw [List.nil_append, List.eq_replicate_iff]
    refine ⟨length_ring _ _, ?_⟩
    intro a ha
    rcases (mem_ring _ _ _).mp ha with ⟨i, hi⟩
    rw [← hi, hkeys]
  length_le := Nat.zero_le _
  tail_eq := by rw [hhead, List.length_nil, roAdd_zero]
  last_ne := fun hne => absurd rfl hne
  keys_eq := rfl
  nodup := List.nodup_nil
  count_eq := by rw [hcount]; rfl

/-- {lit}`del_key_byte` takes a key off the list. -/
theorem Represents.delKeyByte {r : Report} {keys content : List UInt8} {code : UInt8}
    (h : Represents r keys content) (hcode : code ≠ 0) :
    ∃ content', Represents (r.delKeyByte code) (keys.erase code) content' := by
  by_cases hmem : code ∈ keys
  swap
  · -- The key is not there.
    have hnone : r.delKeyByte code = r := by
      unfold Report.delKeyByte
      by_cases hcount : r.cbCount = 0
      · rw [if_neg (not_not.mpr hcount)]
      · have hne := h.content_ne_nil (mt h.count_eq_zero.mpr hcount)
        have hfind := h.find_eq_none hne (fun x => x = code) (fun a ha => by
          simpa using fun heq : a = code => hmem ((h.mem_keys hcode).mpr (heq ▸ ha)))
        simp only [hfind, if_pos hcount]
    rw [hnone, List.erase_of_not_mem hmem]
    exact ⟨content, h⟩
  have hkeys : keys ≠ [] := List.ne_nil_of_mem hmem
  rcases List.eq_append_cons_of_mem ((h.mem_keys hcode).mp hmem) with ⟨A, B, rfl, hA⟩
  have hsplit := h.keys_eq
  rw [List.filter_append, List.filter_cons_of_pos (by simpa using hcode)] at hsplit
  have herase : keys.erase code = (A ++ B).filter (· ≠ 0) := by
    rw [← hsplit, List.erase_append_right _ (fun hin => hA (List.mem_of_mem_filter hin)),
      List.erase_cons_head, List.filter_append]
  have hfind := h.find_eq (fun x => x = code)
    (fun a ha => by simpa using fun heq : a = code => hA (heq ▸ ha)) (by simp)
  have hlengths : (A ++ code :: B).length = A.length + (B.length + 1) := by simp
  have hle := h.length_le
  rw [hlengths] at hle
  have hring : ring (update r.keys (roAdd r.cbHead A.length) 0) r.cbHead =
      A ++ 0 :: B ++ List.replicate (keyboardReportKeys - (A ++ 0 :: B).length) 0 := by
    rw [ring_update _ _ (by omega), h.ring_eq, List.append_assoc,
      List.set_append_right _ _ (Nat.le_refl _), Nat.sub_self, List.cons_append,
      List.set_cons_zero, List.append_assoc, List.cons_append]
    simp
  have hcount : (r.cbCount - 1).toNat = (keys.erase code).length := by
    have hpos : 1 ≤ r.cbCount.toNat := by
      rw [h.count_eq]
      exact List.length_pos_iff.mpr hkeys
    rw [List.length_erase_of_mem hmem, ← h.count_eq, UInt8.toNat_sub_of_le _ _ hpos]
    rfl
  have hfind' : r.delKeyByte code = (fun r' : Report =>
      if roAdd r.cbHead A.length = roSub r'.cbTail 1 then
        { r' with cbTail := Report.retreat r'.keys r'.cbHead keyboardReportKeys r'.cbTail }
      else r')
      (if r.cbCount - 1 = 0 then
        ⟨update r.keys (roAdd r.cbHead A.length) 0, 0, 0, r.cbCount - 1⟩
      else ⟨update r.keys (roAdd r.cbHead A.length) 0, r.cbHead, r.cbTail, r.cbCount - 1⟩) := by
    rw [Report.delKeyByte, if_pos (mt h.count_eq_zero.mp hkeys)]
    simp only [hfind]
  rw [hfind']
  by_cases hnone : keys.erase code = []
  · -- It was the only key.
    have hzero : r.cbCount - 1 = 0 := by
      rw [← UInt8.toNat_inj, hcount, hnone]
      rfl
    have hall : ∀ i, update r.keys (roAdd r.cbHead A.length) 0 i = 0 := by
      intro i
      have hi := (mem_ring (update r.keys (roAdd r.cbHead A.length) 0) r.cbHead _).mpr ⟨i, rfl⟩
      rw [herase, List.filter_eq_nil_iff] at hnone
      rw [hring] at hi
      by_contra hne
      rcases List.mem_append.mp hi with hi | hi
      · rcases List.mem_append.mp hi with hi | hi
        · exact hnone _ (List.mem_append_left B hi) (by simpa using hne)
        · rcases List.mem_cons.mp hi with hi | hi
          · exact hne hi
          · exact hnone _ (List.mem_append_right A hi) (by simpa using hne)
      · exact hne (List.eq_of_mem_replicate hi)
    have hkeys' : update r.keys (roAdd r.cbHead A.length) 0 = fun _ => 0 := funext hall
    refine ⟨[], ?_⟩
    rw [hnone, if_pos hzero, hzero, hkeys']
    dsimp only
    split_ifs
    · exact represents_zero (fun _ => rfl) retreat_zero rfl
    · exact represents_zero (fun _ => rfl) rfl rfl
  · have hcountne : r.cbCount - 1 ≠ 0 := by
      rw [Ne, ← UInt8.toNat_inj, hcount, UInt8.toNat_zero, List.length_eq_zero_iff]
      exact hnone
    have hplace : roAdd r.cbHead A.length = roSub r.cbTail 1 ↔ B = [] := by
      rw [h.tail_eq, hlengths, roSub_roAdd _ (by omega) (by decide),
        roAdd_inj _ (by omega) (by omega), ← List.length_eq_zero_iff]
      omega
    rw [if_neg hcountne]
    dsimp only
    by_cases hB : B = []
    · -- The tail goes back behind the key before it.
      subst hB
      rw [List.append_nil] at herase
      rw [if_pos (hplace.mpr rfl)]
      refine ⟨A.rdropWhile (· = 0), ?_⟩
      have hprefix : A <+: ring (update r.keys (roAdd r.cbHead A.length) 0) r.cbHead := by
        rw [hring, List.append_assoc]
        exact List.prefix_append _ _
      have hex : ∃ a ∈ A, a ≠ 0 := by
        rcases List.exists_mem_of_ne_nil _ hnone with ⟨a, ha⟩
        rw [herase, List.mem_filter] at ha
        exact ⟨a, ha.1, by simpa using ha.2⟩
      have hretreat := retreat_eq _ r.cbHead A keyboardReportKeys hprefix
        (by simp at hle ⊢; omega) (by simp at hle ⊢; omega) hex
      have hdrop := (List.rdropWhile_prefix (fun x : UInt8 => x = 0) (l := A)).length_le
      exact {
        ring_eq := by
          change ring (update r.keys (roAdd r.cbHead A.length) 0) r.cbHead = _
          have hroom : keyboardReportKeys - (A ++ [0]).length + 1 =
              keyboardReportKeys - A.length := by
            simp at hle ⊢
            omega
          rw [hring, List.append_assoc, List.singleton_append, ← List.replicate_succ, hroom]
          calc A ++ List.replicate (keyboardReportKeys - A.length) 0
              = A.rdropWhile (· = 0) ++
                  List.replicate (A.length - (A.rdropWhile (· = 0)).length) 0 ++
                  List.replicate (keyboardReportKeys - A.length) 0 := by
                rw [← eq_rdropWhile_append]
            _ = A.rdropWhile (· = 0) ++
                  List.replicate (keyboardReportKeys - (A.rdropWhile (· = 0)).length) 0 := by
                rw [List.append_assoc, List.replicate_append_replicate]
                congr 2
                simp at hle
                omega
        length_le := by simp at hle ⊢; omega
        tail_eq := by
          change Report.retreat _ _ _ r.cbTail = _
          rw [h.tail_eq, hlengths]
          exact hretreat
        last_ne := fun hne => by simpa using List.rdropWhile_last_not _ _ hne
        keys_eq := by rw [filter_rdropWhile, herase]
        nodup := h.nodup.erase code
        count_eq := hcount }
    · -- The key leaves a gap.
      rw [if_neg (mt hplace.mp hB)]
      refine ⟨A ++ 0 :: B, ?_⟩
      exact {
        ring_eq := hring
        length_le := by simpa using h.length_le
        tail_eq := by simpa using h.tail_eq
        last_ne := by
          intro hne
          have hlast := h.last_ne (by simp)
          rw [List.getLast_append_of_ne_nil _ (List.cons_ne_nil _ _), List.getLast_cons hB]
            at hlast ⊢
          exact hlast
        keys_eq := by
          rw [herase, List.filter_append, List.filter_append, List.filter_cons_of_neg (by simp)]
        nodup := h.nodup.erase code
        count_eq := hcount }

/-! ## Runs -/

/-- What holds before each call. -/
def Invariant (s : Report × List UInt8) : Prop :=
  ∃ content, Represents s.1 s.2 content

theorem invariant_start : Invariant (Report.empty, []) :=
  ⟨[], represents_zero (fun _ => rfl) rfl rfl⟩

/-- Cleared, a report still counts the keys that it had. -/
theorem clear_shows_iff {r : Report} {keys : List UInt8} (h : Invariant (r, keys)) :
    Shows r.clearKeys [] ↔ ∀ i, r.keys i = 0 := by
  rcases h with ⟨content, h⟩
  dsimp only at h
  constructor
  · intro hshows i
    have hzero : keys = [] := by
      rw [← List.length_eq_zero_iff, ← h.count_eq]
      exact hshows.length
    by_contra hne
    have hmem := (h.shows.mem_iff _ hne).mpr ⟨i, rfl⟩
    rw [hzero] at hmem
    exact List.not_mem_nil hmem
  · intro hall
    have hkeys : keys = [] := by
      by_contra hne
      rcases List.exists_mem_of_ne_nil _ hne with ⟨code, hmem⟩
      have hcode : code ≠ 0 := by
        rw [← h.keys_eq, List.mem_filter] at hmem
        simpa using hmem.2
      rcases (h.shows.mem_iff code hcode).mp hmem with ⟨i, hi⟩
      exact hcode (by rw [← hi, hall i])
    have htail := h.tail_eq
    rw [h.content_eq_nil hkeys, List.length_nil, roAdd_zero] at htail
    exact (represents_zero (r := r.clearKeys) (fun _ => rfl) htail
      (h.count_eq_zero.mpr hkeys)).shows

theorem shows_iff (s : Report × List UInt8) (i : Input) (h : Invariant s) :
    Shows (step s i).1 (step s i).2 ↔ ClearsEmpty s i := by
  cases i with
  | add code hcode =>
    rcases h with ⟨content, h⟩
    rcases h.addKeyByte hcode with ⟨content', h'⟩
    exact iff_of_true h'.shows trivial
  | del code hcode =>
    rcases h with ⟨content, h⟩
    rcases h.delKeyByte hcode with ⟨content', h'⟩
    exact iff_of_true h'.shows trivial
  | clear => exact clear_shows_iff h

theorem invariant_step (s : Report × List UInt8) (i : Input) (h : Invariant s)
    (hclear : ClearsEmpty s i) : Invariant (step s i) := by
  rcases h with ⟨content, h⟩
  cases i with
  | add code hcode => exact h.addKeyByte hcode
  | del code hcode => exact h.delKeyByte hcode
  | clear =>
    have hempty : s.1.clearKeys = s.1 := by
      simp only [Report.clearKeys]
      rw [show (fun _ => 0) = s.1.keys from (funext hclear).symm]
    have hkeys : s.2 = [] := by
      have hshows := ((clear_shows_iff ⟨content, h⟩).mpr hclear).length
      rw [← List.length_eq_zero_iff, ← h.count_eq]
      exact hshows
    refine ⟨content, ?_⟩
    simp only [step, stepList]
    rw [hempty, ← hkeys]
    exact h

/-- After every call the report shows the keys of the list and counts them, exactly as long as
a report is cleared only when it has no keys. -/
theorem ringReport_iff (inputs : List Input) :
    StateMachine.Along step (fun s i => Shows (step s i).1 (step s i).2) (Report.empty, [])
        inputs ↔
      StateMachine.Along step ClearsEmpty (Report.empty, []) inputs :=
  StateMachine.along_iff_of_invariant Invariant shows_iff invariant_step invariant_start

/-- The counter after a key is pressed and the report is cleared. -/
theorem ringReport_cleared :
    ¬ StateMachine.Along step (fun s i => Shows (step s i).1 (step s i).2) (Report.empty, [])
      [.add 4 (by decide), .clear] := by
  rintro ⟨-, hshows, -⟩
  exact absurd hshows.length (by decide)

end RingReport
end Keys
end VialQmk
