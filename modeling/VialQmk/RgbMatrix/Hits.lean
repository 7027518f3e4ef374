import VialQmk.Library.Memory
import VialQmk.Library.Recent
import VialQmk.Library.Runs

/-!
# RGB matrix - the hits of reactive effects

{lit}`rgb_matrix.c`: the LEDs of the last keys are kept in {lit}`last_hit_buffer`, each with the
time since it was hit.  The heat map has a state of its own and is left out.

Main results:

- Definition {lit}`handleKeyEvent`: the LEDs of a key are hit.
- Definition {lit}`taskTimers`: time passes.
- Theorem {lit}`hits_recent`: the buffer holds the most recent hits, as long as hits expire
  all at once and only a full buffer overflows.
-/

namespace VialQmk
namespace RgbMatrix

open Function (update update_self update_of_ne)
open StateMachine

/-! ## The buffer -/

/-- {lit}`NO_LED` -/
def noLed : UInt8 := 255

/-- The layout of the keyboard, and when its effects react. -/
structure Config where
  /-- {lit}`LED_HITS_TO_REMEMBER` -/
  hitsToRemember : ℕ
  /-- The hits are counted in a byte. -/
  hitsToRemember_le : hitsToRemember ≤ 255
  /-- {lit}`RGB_MATRIX_SPLIT` -/
  split : Bool
  /-- {lit}`is_keyboard_master` -/
  isKeyboardMaster : Bool
  /-- whether a press, or a release, is a hit: {lit}`RGB_MATRIX_KEYPRESSES` and
  {lit}`RGB_MATRIX_KEYRELEASES` -/
  reacts : Bool → Bool
  /-- {lit}`rgb_matrix_map_row_column_to_led_kb` -/
  mapRowColumnToLedKb : UInt8 → UInt8 → List UInt8
  /-- {lit}`g_led_config.matrix_co` -/
  matrixCo : UInt8 → UInt8 → UInt8
  /-- {lit}`g_led_config.point` -/
  point : UInt8 → UInt8 × UInt8

/-- {lit}`rgb_matrix_map_row_column_to_led` -/
def Config.mapRowColumnToLed (c : Config) (row column : UInt8) : List UInt8 :=
  c.mapRowColumnToLedKb row column ++
    if c.matrixCo row column ≠ noLed then [c.matrixCo row column] else []

/-- {lit}`last_hit_t` -/
structure LastHit where
  count : ℕ
  x : Memory UInt8
  y : Memory UInt8
  index : Memory UInt8
  tick : Memory UInt16

/-- {lit}`rgb_matrix_init` -/
def LastHit.init : LastHit where
  count := 0
  x := fun _ => 0
  y := fun _ => 0
  index := fun _ => 0
  tick := fun _ => 0xFFFF

variable (c : Config)

/-- {lit}`memcpy(&a[0], &a[k], n)`.  The two ranges may overlap, which C leaves open; a copy from
the first entry on moves them as they are. -/
def moveDown {α : Type} (a : Memory α) (k n : ℕ) : Memory α :=
  a.store 0 (a.load k n)

/-- All four arrays lose their first entries. -/
def LastHit.evict (b : LastHit) (k : ℕ) : LastHit where
  count := c.hitsToRemember - k
  x := moveDown b.x k (c.hitsToRemember - k)
  y := moveDown b.y k (c.hitsToRemember - k)
  index := moveDown b.index k (c.hitsToRemember - k)
  tick := moveDown b.tick k (c.hitsToRemember - k)

/-- The body of the loop over the LEDs. -/
def LastHit.record (b : LastHit) (led : UInt8) : LastHit where
  count := b.count + 1
  x := update b.x b.count (c.point led).1
  y := update b.y b.count (c.point led).2
  index := update b.index b.count led
  tick := update b.tick b.count 0

/-- The LEDs a key event hits. -/
def Config.hitLeds (row column : UInt8) (pressed : Bool) : List UInt8 :=
  if c.reacts pressed then c.mapRowColumnToLed row column else []

/-- {lit}`rgb_matrix_handle_key_event` -/
def handleKeyEvent (b : LastHit) (row column : UInt8) (pressed : Bool) : LastHit :=
  if !c.split && !c.isKeyboardMaster then b
  else
    let led := c.hitLeds row column pressed
    led.foldl (LastHit.record c)
      (if b.count + led.length > c.hitsToRemember then b.evict c led.length else b)

/-- The body of the loop over the hits. -/
def LastHit.age (deltaTime : UInt32) (b : LastHit) (i : ℕ) : LastHit :=
  if 0xFFFF - deltaTime < (b.tick i).toUInt32 then
    ⟨b.count - 1, b.x, b.y, b.index, b.tick⟩
  else
    ⟨b.count, b.x, b.y, b.index, update b.tick i ((b.tick i).toUInt32 + deltaTime).toUInt16⟩

/-- {lit}`rgb_task_timers` -/
def taskTimers (b : LastHit) (deltaTime : UInt32) : LastHit :=
  (List.range b.count).foldl (LastHit.age deltaTime) b

/-- Keys and calls of the task, in any order. -/
inductive Input where
  | key (row column : UInt8) (pressed : Bool)
  | timers (deltaTime : UInt32)

def step (b : LastHit) : Input → LastHit
  | .key row column pressed => handleKeyEvent c b row column pressed
  | .timers deltaTime => taskTimers b deltaTime

/-! ## The list of hits -/

/-- An entry of the buffer. -/
structure Entry where
  x : UInt8
  y : UInt8
  index : UInt8
  tick : UInt16
deriving DecidableEq

def LastHit.entry (b : LastHit) (i : ℕ) : Entry where
  x := b.x i
  y := b.y i
  index := b.index i
  tick := b.tick i

/-- The entries in use. -/
def LastHit.entries (b : LastHit) : List Entry :=
  (List.range b.count).map b.entry

/-- A hit, and the time that has passed since. -/
structure Hit where
  led : UInt8
  age : ℕ
deriving DecidableEq

/-- What a step adds to the history of all hits. -/
def History.next (hits : List Hit) : Input → List Hit
  | .key row column pressed =>
    if !c.split && !c.isKeyboardMaster then hits
    else hits ++ (c.hitLeds row column pressed).map fun led => ⟨led, 0⟩
  | .timers deltaTime => hits.map fun hit => ⟨hit.led, hit.age + deltaTime.toNat⟩

def Hit.fresh (hit : Hit) : Bool :=
  hit.age ≤ 65535

/-- The most recent hits that are fresh, oldest first. -/
def recent (hits : List Hit) : List Hit :=
  (hits.filter Hit.fresh).rtake c.hitsToRemember

/-- The entry that shows a hit. -/
def Config.entryOf (hit : Hit) : Entry where
  x := (c.point hit.led).1
  y := (c.point hit.led).2
  index := hit.led
  tick := .ofNat hit.age

/-- The hit expires within the time. -/
def LastHit.expires (b : LastHit) (deltaTime : UInt32) (i : ℕ) : Prop :=
  65535 < (b.tick i).toNat + deltaTime.toNat

/-- Only a full buffer overflows, and hits expire all at once, in one reading of a 16-bit
timer. -/
def Meets (b : LastHit) : Input → Prop
  | .key row column pressed =>
    b.count + (c.hitLeds row column pressed).length ≤ c.hitsToRemember ∨
      b.count = c.hitsToRemember
  | .timers deltaTime =>
    b.count = 0 ∨ deltaTime.toNat ≤ 65535 ∧
      ((∀ i < b.count, ¬ b.expires deltaTime i) ∨ ∀ i < b.count, b.expires deltaTime i)

instance (b : LastHit) (deltaTime : UInt32) (i : ℕ) : Decidable (b.expires deltaTime i) :=
  inferInstanceAs (Decidable (_ < _))

instance (b : LastHit) : (i : Input) → Decidable (Meets c b i)
  | .key _ _ _ => inferInstanceAs (Decidable (_ ∨ _))
  | .timers _ => inferInstanceAs (Decidable (_ ∨ _ ∧ _))

/-! ## Keys -/

variable {c}

@[simp]
theorem entries_length (b : LastHit) : b.entries.length = b.count := by
  simp [LastHit.entries]

/-- A recorded LED is the last entry. -/
theorem entries_record (b : LastHit) (led : UInt8) :
    (b.record c led).entries = b.entries ++ [c.entryOf ⟨led, 0⟩] := by
  have hold : (List.range b.count).map (b.record c led).entry = b.entries := by
    apply List.map_congr_left
    intro i hi
    have hne : i ≠ b.count := Nat.ne_of_lt (List.mem_range.mp hi)
    simp only [LastHit.entry, LastHit.record, update_of_ne hne]
  have hnew : (b.record c led).entry b.count = c.entryOf ⟨led, 0⟩ := by
    simp only [LastHit.entry, LastHit.record, update_self]
    rfl
  calc (b.record c led).entries
      = (List.range (b.count + 1)).map (b.record c led).entry := rfl
    _ = b.entries ++ [c.entryOf ⟨led, 0⟩] := by
      rw [List.range_succ, List.map_append, hold, List.map_singleton, hnew]

theorem entries_foldl_record (b : LastHit) (leds : List UInt8) :
    (leds.foldl (LastHit.record c) b).entries =
      b.entries ++ (leds.map fun led => (⟨led, 0⟩ : Hit)).map c.entryOf := by
  induction leds generalizing b with
  | nil => rw [List.map_nil, List.map_nil, List.append_nil, List.foldl_nil]
  | cons led leds ih =>
    rw [List.foldl_cons, ih, entries_record, List.append_assoc]
    rfl

theorem moveDown_of_lt {α : Type} (a : Memory α) {k n i : ℕ} (h : i < n) :
    moveDown a k n i = a (k + i) := by
  have hload : i < (a.load k n).length := by
    rw [Memory.load_length]
    exact h
  have hstore := Memory.store_add (m := a) (a := 0) hload
  rw [Nat.zero_add, Memory.load_getElem] at hstore
  exact hstore

/-- A full buffer loses its oldest entries. -/
theorem entries_evict {b : LastHit} (hfull : b.count = c.hitsToRemember) (k : ℕ) :
    (b.evict c k).entries = b.entries.drop k := by
  apply List.ext_getElem
  · rw [List.length_drop, entries_length, entries_length, hfull]
    rfl
  · intro i hi _
    rw [entries_length] at hi
    have hlt : i < c.hitsToRemember - k := hi
    simp only [LastHit.entries, List.getElem_map, List.getElem_range, List.getElem_drop,
      LastHit.entry, LastHit.evict, moveDown_of_lt _ hlt]

/-! ## Time -/

/-- The test of {lit}`rgb_task_timers`, for times that fit its timer. -/
theorem expired_iff {deltaTime : UInt32} (htime : deltaTime.toNat ≤ 65535) (tick : UInt16) :
    0xFFFF - deltaTime < tick.toUInt32 ↔ 65535 < tick.toNat + deltaTime.toNat := by
  have hsub : (0xFFFF - deltaTime).toNat = 65535 - deltaTime.toNat :=
    UInt32.toNat_sub_of_le _ _ (UInt32.le_iff_toNat_le.mpr htime)
  rw [UInt32.lt_iff_toNat_lt, hsub, UInt16.toNat_toUInt32]
  omega

/-- A tick grows as the age does. -/
theorem tick_add (age : ℕ) (deltaTime : UInt32) :
    ((UInt16.ofNat age).toUInt32 + deltaTime).toUInt16 = .ofNat (age + deltaTime.toNat) := by
  apply UInt16.toNat_inj.mp
  rw [UInt32.toNat_toUInt16, UInt32.toNat_add, UInt16.toNat_toUInt32, UInt16.toNat_ofNat',
    UInt16.toNat_ofNat']
  omega

/-- Where no hit expires, all grow older. -/
theorem age_none {b : LastHit} {deltaTime : UInt32} (htime : deltaTime.toNat ≤ 65535) {n : ℕ}
    (h : ∀ i < n, ¬ b.expires deltaTime i) :
    (List.range n).foldl (LastHit.age deltaTime) b =
      ⟨b.count, b.x, b.y, b.index, fun i =>
        if i < n then ((b.tick i).toUInt32 + deltaTime).toUInt16 else b.tick i⟩ := by
  induction n with
  | zero => rfl
  | succ n ih =>
    have hkept : ¬ 0xFFFF - deltaTime < (b.tick n).toUInt32 := fun hexp =>
      h n (Nat.lt_succ_self n) ((expired_iff htime _).mp hexp)
    rw [List.range_succ, List.foldl_append, ih fun i hi => h i (Nat.lt_succ_of_lt hi)]
    simp only [List.foldl_cons, List.foldl_nil, LastHit.age, Nat.lt_irrefl, if_false]
    rw [if_neg hkept]
    congr 1
    funext i
    rcases Nat.lt_trichotomy i n with hlt | rfl | hgt
    · rw [update_of_ne (Nat.ne_of_lt hlt), if_pos hlt, if_pos (Nat.lt_succ_of_lt hlt)]
    · rw [update_self, if_pos (Nat.lt_succ_self i)]
    · rw [update_of_ne (Nat.ne_of_gt hgt), if_neg (Nat.not_lt_of_gt hgt), if_neg (by omega)]

/-- Where all hits expire, they are counted out. -/
theorem age_all {b : LastHit} {deltaTime : UInt32} (htime : deltaTime.toNat ≤ 65535) {n : ℕ}
    (h : ∀ i < n, b.expires deltaTime i) :
    (List.range n).foldl (LastHit.age deltaTime) b =
      ⟨b.count - n, b.x, b.y, b.index, b.tick⟩ := by
  induction n with
  | zero => rfl
  | succ n ih =>
    have hgone : 0xFFFF - deltaTime < (b.tick n).toUInt32 :=
      (expired_iff htime _).mpr (h n (Nat.lt_succ_self n))
    rw [List.range_succ, List.foldl_append, ih fun i hi => h i (Nat.lt_succ_of_lt hi)]
    simp only [List.foldl_cons, List.foldl_nil, LastHit.age]
    rw [if_pos hgone, Nat.sub_sub]

/-! ## The buffer and the list -/

/-- The buffer shows the recent hits, and the history has older hits first. -/
structure LastHit.Shows (b : LastHit) (c : Config) (hits : List Hit) : Prop where
  entries_eq : b.entries = (recent c hits).map c.entryOf
  sorted : hits.Pairwise fun hit later => later.age ≤ hit.age

theorem LastHit.Shows.count_eq {b : LastHit} {hits : List Hit} (h : b.Shows c hits) :
    b.count = (recent c hits).length := by
  rw [← entries_length b, h.entries_eq, List.length_map]

theorem fresh_of_mem_recent {hits : List Hit} {hit : Hit} (h : hit ∈ recent c hits) :
    hit.age ≤ 65535 := by
  have hmem : hit ∈ hits.filter Hit.fresh := List.mem_of_mem_drop h
  exact of_decide_eq_true (List.mem_filter.mp hmem).2

/-- What holds of all ticks in use holds of all recent hits. -/
theorem LastHit.Shows.forall_tick {b : LastHit} {hits : List Hit} (h : b.Shows c hits)
    (P : ℕ → Prop) :
    (∀ i < b.count, P (b.tick i).toNat) ↔ ∀ hit ∈ recent c hits, P hit.age := by
  have hentries : (∀ i < b.count, P (b.tick i).toNat) ↔ ∀ e ∈ b.entries, P e.tick.toNat := by
    simp [LastHit.entries, LastHit.entry]
  have hage : ∀ hit ∈ recent c hits, (c.entryOf hit).tick.toNat = hit.age := fun hit hmem =>
    UInt16.toNat_ofNat_of_lt (Nat.lt_succ_of_le (fresh_of_mem_recent hmem))
  rw [hentries, h.entries_eq, List.forall_mem_map]
  refine forall₂_congr fun hit hmem => ?_
  rw [hage hit hmem]

/-- New hits go behind the recent ones, and push out the oldest. -/
theorem recent_append (hits : List Hit) {leds : List UInt8}
    (hleds : leds.length ≤ c.hitsToRemember) :
    recent c (hits ++ leds.map fun led => ⟨led, 0⟩) =
      (recent c hits).drop ((recent c hits).length + leds.length - c.hitsToRemember) ++
        leds.map fun led => ⟨led, 0⟩ := by
  have hnew : (leds.map fun led => (⟨led, 0⟩ : Hit)).filter Hit.fresh =
      leds.map fun led => ⟨led, 0⟩ := by
    refine List.filter_eq_self.mpr fun hit hmem => ?_
    obtain ⟨led, -, rfl⟩ := List.mem_map.mp hmem
    rfl
  have hlen : (leds.map fun led => (⟨led, 0⟩ : Hit)).length = leds.length := List.length_map _
  unfold recent
  rw [List.filter_append, hnew, List.rtake_append_of_le _ (hlen ▸ hleds), hlen]

theorem sorted_append {hits : List Hit}
    (h : hits.Pairwise fun hit later => later.age ≤ hit.age) (leds : List UInt8) :
    (hits ++ leds.map fun led => (⟨led, 0⟩ : Hit)).Pairwise
      fun hit later => later.age ≤ hit.age := by
  refine List.pairwise_append.mpr ⟨h, ?_, fun hit _ later hlater => ?_⟩
  · exact List.pairwise_map.mpr (List.pairwise_of_forall fun _ _ => Nat.le_refl _)
  · obtain ⟨led, -, rfl⟩ := List.mem_map.mp hlater
    exact Nat.zero_le _

/-- A key event that meets the condition. -/
theorem shows_handleKeyEvent {b : LastHit} {hits : List Hit} (h : b.Shows c hits)
    {row column : UInt8} {pressed : Bool}
    (hleds : (c.hitLeds row column pressed).length ≤ c.hitsToRemember)
    (hmeets : Meets c b (.key row column pressed)) :
    (handleKeyEvent c b row column pressed).Shows c
      (History.next c hits (.key row column pressed)) := by
  simp only [handleKeyEvent, History.next]
  split_ifs with hslave hfull
  · exact h
  · have hcount : b.count = c.hitsToRemember := hmeets.resolve_left (Nat.not_le_of_gt hfull)
    refine ⟨?_, sorted_append h.sorted _⟩
    have hdrop : (recent c hits).length + (c.hitLeds row column pressed).length -
        c.hitsToRemember = (c.hitLeds row column pressed).length := by
      rw [← h.count_eq, hcount, Nat.add_sub_cancel_left]
    rw [entries_foldl_record, entries_evict hcount, h.entries_eq, recent_append hits hleds, hdrop,
      List.map_append, List.map_drop]
  · refine ⟨?_, sorted_append h.sorted _⟩
    have hdrop : (recent c hits).length + (c.hitLeds row column pressed).length -
        c.hitsToRemember = 0 := by
      rw [← h.count_eq]
      omega
    rw [entries_foldl_record, h.entries_eq, recent_append hits hleds, hdrop, List.drop_zero,
      List.map_append]

/-- The hits that are still fresh after some time were fresh before it. -/
theorem recent_aged (hits : List Hit) (t : ℕ) :
    recent c (hits.map fun hit => ⟨hit.led, hit.age + t⟩) =
      (((hits.filter Hit.fresh).filter fun hit => hit.age + t ≤ 65535).rtake
        c.hitsToRemember).map fun hit => ⟨hit.led, hit.age + t⟩ := by
  unfold recent
  rw [List.filter_map, List.map_rtake_eq, List.filter_filter]
  congr 2
  apply List.filter_congr
  intro hit _
  simp only [Function.comp, Hit.fresh]
  by_cases hlate : hit.age + t ≤ 65535
  · have hbefore : hit.age ≤ 65535 := by omega
    simp only [hlate, hbefore, decide_true, Bool.and_self]
  · simp only [hlate, decide_false, Bool.false_and]

theorem sorted_aged {hits : List Hit}
    (h : hits.Pairwise fun hit later => later.age ≤ hit.age) (t : ℕ) :
    (hits.map fun hit => (⟨hit.led, hit.age + t⟩ : Hit)).Pairwise
      fun hit later => later.age ≤ hit.age :=
  List.pairwise_map.mpr (h.imp fun hle => Nat.add_le_add_right hle t)

/-- A call of the task that meets the condition. -/
theorem shows_taskTimers {b : LastHit} {hits : List Hit} (h : b.Shows c hits)
    {deltaTime : UInt32} (hmeets : Meets c b (.timers deltaTime)) :
    (taskTimers b deltaTime).Shows c (History.next c hits (.timers deltaTime)) := by
  refine ⟨?_, sorted_aged h.sorted _⟩
  have haged := recent_aged (c := c) hits deltaTime.toNat
  simp only [History.next]
  rw [haged]
  -- the hits that do not expire, with those that no reading has seen expire
  by_cases hall : ∀ i < b.count, b.expires deltaTime i
  · have hgone : ∀ hit ∈ recent c hits, decide (hit.age + deltaTime.toNat ≤ 65535) = false :=
      fun hit hmem => decide_eq_false (Nat.not_le_of_gt
        ((h.forall_tick fun age => 65535 < age + deltaTime.toNat).mp hall hit hmem))
    have hempty : (taskTimers b deltaTime).entries = [] := by
      apply List.eq_nil_of_length_eq_zero
      rw [entries_length]
      rcases hmeets with hzero | ⟨htime, -⟩
      · unfold taskTimers
        rw [hzero]
        exact hzero
      · unfold taskTimers
        rw [age_all htime hall]
        exact Nat.sub_self _
    have hsorted : (hits.filter Hit.fresh).Pairwise fun hit later =>
        decide (hit.age + deltaTime.toNat ≤ 65535) →
          decide (later.age + deltaTime.toNat ≤ 65535) := by
      refine (h.sorted.filter _).imp fun {hit later} hle hfresh => ?_
      have hfresh' := of_decide_eq_true hfresh
      exact decide_eq_true (by omega)
    rw [hempty, List.rtake_filter_of_none hsorted hgone]
    rfl
  · have hpos : b.count ≠ 0 := fun hzero => hall fun i hi => by omega
    obtain ⟨htime, hnone⟩ := hmeets.resolve_left hpos
    have hnone' := hnone.resolve_right hall
    have hkept : ∀ hit ∈ recent c hits, decide (hit.age + deltaTime.toNat ≤ 65535) = true :=
      fun hit hmem => decide_eq_true (Nat.le_of_not_gt
        ((h.forall_tick fun age => ¬ 65535 < age + deltaTime.toNat).mp hnone' hit hmem))
    have hentries : (taskTimers b deltaTime).entries = b.entries.map fun e =>
        ⟨e.x, e.y, e.index, (e.tick.toUInt32 + deltaTime).toUInt16⟩ := by
      unfold taskTimers
      rw [age_none htime hnone']
      simp only [LastHit.entries, List.map_map]
      apply List.map_congr_left
      intro i hi
      simp only [Function.comp, LastHit.entry, if_pos (List.mem_range.mp hi)]
    rw [hentries, h.entries_eq, List.rtake_filter_of_forall hkept, List.map_map, List.map_map]
    apply List.map_congr_left
    intro hit _
    simp only [Function.comp, Config.entryOf, tick_add]

theorem shows_init : LastHit.init.Shows c [] where
  entries_eq := by
    unfold recent
    rw [List.filter_nil, List.rtake_nil]
    rfl
  sorted := List.Pairwise.nil

/-- In a run whose steps meet the condition the buffer holds, oldest first, the most recent
hits that are at most 65535 ms old, each with its LED and its age. -/
theorem hits_recent (c : Config)
    (hleds : ∀ row column, (c.mapRowColumnToLed row column).length ≤ c.hitsToRemember)
    (is : List Input) (hmeets : Along (step c) (Meets c) .init is) :
    (run (step c) .init is).entries =
      (recent c (run (History.next c) [] is)).map c.entryOf := by
  have hshows : (run (step c) .init is).Shows c (run (History.next c) [] is) := by
    refine run_simulation (fun b hits => b.Shows c hits) (fun b hits i h hi => ?_) shows_init hmeets
    cases i with
    | key row column pressed =>
      refine shows_handleKeyEvent h ?_ hi
      unfold Config.hitLeds
      split_ifs
      · exact hleds row column
      · exact Nat.zero_le _
    | timers deltaTime => exact shows_taskTimers h hi
  exact hshows.entries_eq

/-- One LED under each key, and eight LEDs beside the keys of the second row. -/
def Config.grid : Config where
  hitsToRemember := 8
  hitsToRemember_le := by decide
  split := false
  isKeyboardMaster := true
  reacts := fun pressed => pressed
  mapRowColumnToLedKb := fun row _ => if row = 1 then [20, 21, 22, 23, 24, 25] else []
  matrixCo := fun _ column => column
  point := fun led => (led, 0)

theorem Config.grid_leds (row column : UInt8) :
    (Config.grid.mapRowColumnToLed row column).length ≤ Config.grid.hitsToRemember := by
  by_cases hrow : row = 1 <;> by_cases hled : column = noLed <;>
    simp [Config.mapRowColumnToLed, Config.grid, hrow, hled]

/-- Nine keys: the oldest hit is pushed out, and in the end all are gone. -/
theorem hits_recent_keys :
    let keys := (List.range 9).map fun i => Input.key 0 (.ofNat i) true
    (run (step .grid) .init (keys ++ [.timers 500])).entries =
      (List.range' 1 8).map (fun i => ⟨.ofNat i, 0, .ofNat i, 500⟩) ∧
    (run (step .grid) .init (keys ++ [.timers 500])).entries =
      (recent .grid (run (History.next .grid) [] (keys ++ [.timers 500]))).map
        Config.grid.entryOf :=
  ⟨by decide +kernel, hits_recent .grid Config.grid_leds _ (by decide +kernel)⟩

/-- A hit is dropped in place of an older one that expires; a long time is taken for a short
one; and entries from before show up where a buffer overflows that is not full. -/
theorem not_recent :
    let shown (is : List Input) := (run (step .grid) .init is).entries
    let wanted (is : List Input) :=
      (recent .grid (run (History.next .grid) [] is)).map Config.grid.entryOf
    let expiry := [.key 0 1 true, .timers 40000, .key 0 2 true, .timers 30000]
    let late := [.key 0 1 true, .timers 70000]
    let overflow := [.key 0 1 true, .key 0 2 true, .key 0 3 true, .key 1 4 true]
    shown expiry ≠ wanted expiry ∧ shown late ≠ wanted late ∧ shown overflow ≠ wanted overflow := by
  decide +kernel

end RgbMatrix
end VialQmk
