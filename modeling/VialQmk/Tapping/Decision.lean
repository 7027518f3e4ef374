import VialQmk.Tapping.Rule
import VialQmk.Tapping.Settled

/-!
# Tapping - tap or hold

The machine decides by the rule.  As long as it has not, the tapping key is the press, and
every press since is in the buffer.

With permissive hold the code looks for the press of a released key anywhere in the
buffer.  A release that was retained there, because its press is older than the tapping
key, takes a later press for its own.

Main results:

- Structure {lit}`Pending`: the state while nothing is decided.
- Theorem {lit}`run_decision`: a press from the reset state is processed by the rule, and
  its release in the same way, along every run in which no event of its key overtakes and
  no key is pressed again in front of its retained release.
-/

namespace VialQmk
namespace Tapping

variable {K : Type} [DecidableEq K] {c : Config K} {p : Arrival K}

/-! ## Before the decision -/

/-- While {lit}`p` is not settled, a key whose release is retained at the front of the
buffer is pressed again, and permissive hold looks for presses behind releases. -/
def RepressesRetained (c : Config K) (p : Arrival K) (s : State K) (a : Arrival K) : Prop :=
  a.event.isEvent = true ∧ a.pressed = true ∧ c.permissiveHold p.key = true ∧
    c.holdOnOtherKeyPress p.key = false ∧ a.time < p.time + c.tappingTerm p.key ∧
    match s.tappingKey, s.waitingBuffer with
    | some tk, r :: _ => tk.event = p.event ∧ tk.tap.count = 0 ∧ r.event.pressed = false ∧
        r.event.key = a.key
    | _, _ => False

instance (c : Config K) (p : Arrival K) :
    (s : State K) → (a : Arrival K) → Decidable (RepressesRetained c p s a)
  | ⟨none, _, _⟩, _ => inferInstanceAs (Decidable (_ ∧ _ ∧ _ ∧ _ ∧ _ ∧ False))
  | ⟨some _, [], _⟩, _ => inferInstanceAs (Decidable (_ ∧ _ ∧ _ ∧ _ ∧ _ ∧ False))
  | ⟨some _, _ :: _, _⟩, _ => inferInstanceAs (Decidable (_ ∧ _ ∧ _ ∧ _ ∧ _ ∧ _))

/-- Nothing is decided about the press {lit}`p`, and the events {lit}`as` have come since. -/
structure Pending (c : Config K) (p : Arrival K) (old : List (KeyRecord K))
    (as : List (Arrival K)) (s : State K) : Prop where
  tappingKey : ∃ tk, s.tappingKey = some tk ∧ tk.event = p.event ∧ tk.tap.count = 0
  records : s.recordsOf p.key = old
  others : ∀ a ∈ as, a.event.isEvent = true → a.key ≠ p.key
  inTime : ∀ a ∈ as, p.time ≤ a.time ∧ a.time < p.time + c.tappingTerm p.key
  waiting : ∀ r ∈ s.waitingBuffer, ∃ a ∈ as, a.event.isEvent = true ∧ r = newRecord a.event
  presses : ∀ a ∈ as, a.event.isEvent = true → a.pressed = true →
    newRecord a.event ∈ s.waitingBuffer
  noHold : ∀ r ∈ s.waitingBuffer, r.event.pressed = true → c.holdOnOtherKeyPress p.key = false
  /-- a release at the front of the buffer stays there -/
  front : ∀ r, s.waitingBuffer.head? = some r → r.event.pressed = false →
    (c.permissiveHold p.key = true → waitingBufferTyped s r.event = false) ∧
      (waitingBufferTyped s r.event = false → c.retained r.event.key 0 = true)

omit [DecidableEq K] in
/-- The 16 bits tell the time since the press, while it is not too long. -/
theorem withinTappingTerm_iff {tk : KeyRecord K} {a : Arrival K} (htk : tk.event = p.event)
    (hle : p.time ≤ a.time) (hlt : a.time < p.time + 2 ^ 15) :
    withinTappingTerm c tk a.event = true ↔ a.time < p.time + c.tappingTerm p.key := by
  have helapsed : (UInt16.ofNat a.time - UInt16.ofNat p.time).toNat = a.time - p.time := by
    rw [UInt16.toNat_sub, UInt16.toNat_ofNat', UInt16.toNat_ofNat']
    omega
  rw [withinTappingTerm, htk, decide_eq_true_eq]
  show (UInt16.ofNat a.time - UInt16.ofNat p.time).toNat < c.tappingTerm p.key ↔ _
  rw [helapsed]
  omega

section Pending

variable {old : List (KeyRecord K)} {as : List (Arrival K)} {s : State K}

theorem processTapping_undecided {tk r : KeyRecord K} (htk : s.tappingKey = some tk)
    (hundecided : tk.Undecided) (hwithin : withinTappingTerm c tk r.event = true)
    (hevent : r.event.isEvent = true) : processTapping c r s = processUndecided c tk r s := by
  rw [processTapping, htk]
  dsimp only
  rw [if_pos hundecided.1, processPressed, if_pos hundecided.2, if_pos hwithin, if_pos hevent]

/-- What a record of another key does that settles nothing. -/
theorem processUndecided_keeps {tk r : KeyRecord K} (hother : r.event.key ≠ tk.event.key)
    (hpress : r.event.pressed = true → c.holdOnOtherKeyPress tk.event.key = false)
    (hrelease : r.event.pressed = false → c.permissiveHold tk.event.key = true →
      waitingBufferTyped s r.event = false) :
    processUndecided c tk r s =
      if r.event.pressed = true then (false, r, s.setTappingKey (some tk.setInterrupted))
      else if waitingBufferTyped s r.event = false ∧ c.retained r.event.key r.tap.count = false then
        (true, r, s.processRecord r)
      else (false, r, s) := by
  rw [processUndecided, if_neg fun h => hother h.1]
  by_cases hpressed : r.event.pressed = true
  · have hnot : ¬ r.event.pressed = false := fun h => Bool.false_ne_true (h.symm.trans hpressed)
    rw [if_neg fun h => hnot h.1, if_neg fun h => hnot h.1, if_pos hpressed, if_pos hpressed,
      if_neg]
    rw [hpress hpressed]
    exact Bool.false_ne_true
  · have hreleased := Bool.eq_false_iff.mpr hpressed
    have htyped : ¬ (r.event.pressed = false ∧ waitingBufferTyped s r.event = true ∧
        c.permissiveHold tk.event.key = true) := fun h =>
      Bool.false_ne_true ((hrelease hreleased h.2.2).symm.trans h.2.1)
    rw [if_neg htyped, if_neg hpressed, if_neg hpressed]
    by_cases hbefore : waitingBufferTyped s r.event = false
    · rw [if_pos ⟨hreleased, hbefore⟩]
      by_cases hretained : c.retained r.event.key r.tap.count = true
      · rw [if_pos hretained, if_neg]
        exact fun h => Bool.false_ne_true (h.2.symm.trans hretained)
      · rw [if_neg hretained, if_pos ⟨hbefore, Bool.eq_false_iff.mpr hretained⟩]
    · rw [if_neg fun h => hbefore h.2, if_neg fun h => hbefore h.1]

/-- The round of the drain on the first record leaves all of it undecided. -/
theorem Pending.drainRound {r : KeyRecord K} {rs : List (KeyRecord K)}
    (hterm : c.tappingTerm p.key ≤ 2 ^ 15) (hpressed : p.pressed = true)
    (h : Pending c p old as s) (hwaiting : s.waitingBuffer = r :: rs) :
    Pending c p old as (drainRound c r s).2 := by
  rcases h.tappingKey with ⟨tk, htk, hevent, hcount⟩
  have hmem : r ∈ s.waitingBuffer := hwaiting ▸ List.mem_cons_self
  rcases h.waiting r hmem with ⟨a, ha, hreal, rfl⟩
  have hundecided : tk.Undecided := ⟨by rw [hevent]; exact hpressed, hcount⟩
  have htime := h.inTime a ha
  have hlong : p.time + c.tappingTerm p.key ≤ p.time + 2 ^ 15 := Nat.add_le_add_left hterm p.time
  have hlate : a.time < p.time + 2 ^ 15 := Nat.lt_of_lt_of_le htime.2 hlong
  have hwithin := (withinTappingTerm_iff (c := c) hevent htime.1 hlate).mpr htime.2
  have hkey : tk.event.key = p.key := by rw [hevent]; rfl
  have hother : (newRecord a.event).event.key ≠ tk.event.key := by
    rw [hkey]
    exact h.others a ha hreal
  have hfront := h.front (newRecord a.event) (by rw [hwaiting]; rfl)
  have hstep : processTapping c (newRecord a.event) s =
      (false, newRecord a.event, if a.pressed = true then s.setTappingKey (some tk.setInterrupted)
        else s) := by
    rw [processTapping_undecided (r := newRecord a.event) htk hundecided hwithin hreal,
      processUndecided_keeps hother]
    · by_cases hpress : a.pressed = true
      · rw [if_pos hpress, if_pos (show (newRecord a.event).event.pressed = true from hpress)]
      · rw [if_neg hpress, if_neg (show ¬ (newRecord a.event).event.pressed = true from hpress),
          if_neg]
        rintro ⟨hbefore, hretained⟩
        have hkept := (hfront (Bool.eq_false_iff.mpr hpress)).2 hbefore
        exact Bool.false_ne_true (hretained.symm.trans hkept)
    · rw [hkey]
      exact h.noHold _ hmem
    · rw [hkey]
      exact fun hrelease => (hfront hrelease).1
  rw [Tapping.drainRound, hstep]
  dsimp only
  rw [if_neg Bool.false_ne_true]
  by_cases hpress : a.pressed = true
  · have hsame : (newRecord a.event :: s.waitingBuffer.tail) = s.waitingBuffer := by
      rw [hwaiting, List.tail_cons]
    rw [if_pos hpress, setTappingKey_waitingBuffer, hsame]
    exact ⟨⟨tk.setInterrupted, rfl, hevent, hcount⟩, h.records, h.others, h.inTime, h.waiting,
      h.presses, h.noHold, h.front⟩
  · have hsame : (newRecord a.event :: s.waitingBuffer.tail) = s.waitingBuffer := by
      rw [hwaiting, List.tail_cons]
    rw [if_neg hpress, hsame]
    exact h

/-! ## An event before the decision -/

/-- The event settles the tapping key as a hold, and is refused. -/
theorem decided_of_hold {e pe : KeyEvent K} {tk : KeyRecord K} (hfull : ¬ Overflows c s e)
    (hstep : processTapping c (newRecord e) s =
      (false, newRecord e, (s.processRecord tk).setTappingKey none))
    (htk : tk.event = pe) (hcount : tk.tap.count = 0) (hreal : pe.isEvent = true)
    (hrecords : s.recordsOf pe.key = old)
    (hwaiting : s.waitingBuffer.filter (fun r => r.event.key = pe.key) = [])
    (hturn : e.isEvent = true → e.key = pe.key → e.pressed = false) :
    Decided pe old false (eventsOf pe.key [e]) (processEvent c s e) := by
  have hverdict : 0 < tk.tap.count ↔ false = true := by simp [hcount]
  have hnew : ((s.processRecord tk).setTappingKey none).recordsOf pe.key = old ++ [tk] := by
    rw [← hrecords]
    exact recordsOf_own (htk ▸ hreal) (htk ▸ rfl)
  have hnokey : ∀ tk' : KeyRecord K, (none : Option (KeyRecord K)) = some tk' →
      tk'.event.key ≠ pe.key := nofun
  rw [processEvent_eq hfull, hstep]
  dsimp only
  by_cases hevent : e.isEvent = true
  · have hnot : ¬ (false = true ∨ e.isEvent = false) := by simp [hevent]
    rw [if_neg hnot]
    by_cases hown : e.key = pe.key
    · rw [eventsOf_own hevent hown]
      refine .waits tk (newRecord e) [] htk hverdict hnew
        (iff_of_false (Nat.lt_irrefl 0) Bool.false_ne_true) (hturn hevent hown) ?_ rfl
        fun tk' h => Or.inl (hnokey tk' h)
      show (s.waitingBuffer ++ [newRecord e]).filter (fun r => r.event.key = pe.key) = [newRecord e]
      rw [List.filter_append, hwaiting, List.nil_append, filter_own (by exact hown)]
    · rw [eventsOf_other fun _ => hown]
      refine .down tk htk hverdict hnew rfl rfl ?_ hnokey
      show (s.waitingBuffer ++ [newRecord e]).filter (fun r => r.event.key = pe.key) = []
      rw [List.filter_append, hwaiting, List.nil_append, filter_other (by exact hown)]
  · rw [if_pos (Or.inr (Bool.eq_false_iff.mpr hevent)), eventsOf_other fun h => absurd h hevent]
    exact .down tk htk hverdict hnew rfl rfl hwaiting hnokey

/-- The release settles the tapping key as a tap, and is refused with its count. -/
theorem decided_of_tap {e pe : KeyEvent K} {tk : KeyRecord K} (hfull : ¬ Overflows c s e)
    (hstep : processTapping c (newRecord e) s =
      (false, { newRecord e with tap := (tk.setCount 1).tap },
        (s.setTappingKey (some (tk.setCount 1))).processRecord (tk.setCount 1)))
    (htk : tk.event = pe) (hpressed : pe.pressed = true) (hreal : pe.isEvent = true)
    (hrecords : s.recordsOf pe.key = old)
    (hwaiting : s.waitingBuffer.filter (fun r => r.event.key = pe.key) = [])
    (hevent : e.isEvent = true) (hown : e.key = pe.key) (hrelease : e.pressed = false) :
    Decided pe old true (eventsOf pe.key [e]) (processEvent c s e) := by
  have htap : ∀ r : KeyRecord K, (0 < (r.setCount 1).tap.count ↔ true = true) :=
    fun _ => iff_of_true Nat.zero_lt_one rfl
  have hnot : ¬ (false = true ∨ e.isEvent = false) := by simp [hevent]
  have hnew : ((s.setTappingKey (some (tk.setCount 1))).processRecord (tk.setCount 1)).recordsOf
      pe.key = old ++ [tk.setCount 1] := by
    rw [← hrecords]
    exact recordsOf_own (s := s.setTappingKey _) (htk ▸ hreal) (htk ▸ rfl)
  rw [processEvent_eq hfull, hstep]
  dsimp only
  rw [if_neg hnot, eventsOf_own hevent hown]
  refine .waits (tk.setCount 1) { newRecord e with tap := (tk.setCount 1).tap } [] htk (htap tk)
    hnew (htap tk) hrelease ?_ rfl ?_
  · show (s.waitingBuffer ++ [{ newRecord e with tap := (tk.setCount 1).tap }]).filter
      (fun r : KeyRecord K => r.event.key = pe.key) = _
    rw [List.filter_append, hwaiting, List.nil_append, filter_own (by exact hown)]
  · intro tk' h
    rw [← Option.some.inj h]
    exact Or.inr ⟨rfl, htk ▸ hpressed, Nat.zero_lt_one⟩

theorem waitingBufferTyped_append (tk : Option (KeyRecord K)) (r : KeyRecord K) (e : KeyEvent K) :
    waitingBufferTyped { s with tappingKey := tk, waitingBuffer := s.waitingBuffer ++ [r] } e =
      (waitingBufferTyped s e || (e.key = r.event.key && e.pressed != r.event.pressed)) := by
  simp [waitingBufferTyped, List.any_append]

/-- An event that is not put into the buffer, and settles nothing. -/
theorem Pending.pass {a : Arrival K} {s' : State K} (h : Pending c p old as s)
    (hother : a.event.isEvent = true → a.key ≠ p.key)
    (htime : p.time ≤ a.time ∧ a.time < p.time + c.tappingTerm p.key)
    (hpress : a.event.isEvent = true → a.pressed = false) (htk : s'.tappingKey = s.tappingKey)
    (hrecords : s'.recordsOf p.key = s.recordsOf p.key)
    (hwaiting : s'.waitingBuffer = s.waitingBuffer) : Pending c p old (as ++ [a]) s' where
  tappingKey := by
    rw [htk]
    exact h.tappingKey
  records := hrecords.trans h.records
  others := List.forall_mem_append.mpr ⟨h.others, List.forall_mem_singleton.mpr hother⟩
  inTime := List.forall_mem_append.mpr ⟨h.inTime, List.forall_mem_singleton.mpr htime⟩
  waiting r hr := by
    rw [hwaiting] at hr
    rcases h.waiting r hr with ⟨x, hx, hevent, heq⟩
    exact ⟨x, List.mem_append_left _ hx, hevent, heq⟩
  presses x hx hevent hpressed := by
    rw [hwaiting]
    rcases List.mem_append.mp hx with hx | hx
    · exact h.presses x hx hevent hpressed
    · rw [List.mem_singleton.mp hx] at hevent hpressed
      exact absurd ((hpress hevent).symm.trans hpressed) Bool.false_ne_true
  noHold := by
    rw [hwaiting]
    exact h.noHold
  front := by
    unfold waitingBufferTyped
    rw [hwaiting]
    exact h.front

/-- An event that is put into the buffer, and settles nothing. -/
theorem Pending.enqueue {a : Arrival K} {tk : KeyRecord K} (h : Pending c p old as s)
    (hevent : a.event.isEvent = true) (hother : a.key ≠ p.key)
    (htime : p.time ≤ a.time ∧ a.time < p.time + c.tappingTerm p.key)
    (htk : tk.event = p.event) (hcount : tk.tap.count = 0)
    (hpress : a.pressed = true → c.holdOnOtherKeyPress p.key = false)
    (hrelease : a.pressed = false → waitingBufferTyped s a.event = false →
      c.retained a.key 0 = true)
    (hrepress : ∀ r rs, s.waitingBuffer = r :: rs → a.pressed = true →
      c.permissiveHold p.key = true → r.event.pressed = false → r.event.key ≠ a.key) :
    Pending c p old (as ++ [a])
      { s with tappingKey := some tk, waitingBuffer := s.waitingBuffer ++ [newRecord a.event] } where
  tappingKey := ⟨tk, rfl, htk, hcount⟩
  records := h.records
  others := List.forall_mem_append.mpr ⟨h.others, List.forall_mem_singleton.mpr fun _ => hother⟩
  inTime := List.forall_mem_append.mpr ⟨h.inTime, List.forall_mem_singleton.mpr htime⟩
  waiting r hr := by
    rcases List.mem_append.mp hr with hr | hr
    · rcases h.waiting r hr with ⟨x, hx, hreal, heq⟩
      exact ⟨x, List.mem_append_left _ hx, hreal, heq⟩
    · exact ⟨a, List.mem_append_right _ List.mem_cons_self, hevent, List.mem_singleton.mp hr⟩
  presses x hx hreal hpressed := by
    rcases List.mem_append.mp hx with hx | hx
    · exact List.mem_append_left _ (h.presses x hx hreal hpressed)
    · rw [List.mem_singleton.mp hx]
      exact List.mem_append_right _ List.mem_cons_self
  noHold := List.forall_mem_append.mpr ⟨h.noHold, List.forall_mem_singleton.mpr hpress⟩
  front r hr hreleased := by
    rw [waitingBufferTyped_append]
    cases hws : s.waitingBuffer with
    | nil =>
      dsimp only at hr
      rw [hws, List.nil_append, List.head?_cons, Option.some.injEq] at hr
      subst hr
      have hnone : waitingBufferTyped s a.event = false := by
        rw [waitingBufferTyped, hws]
        rfl
      have htyped : (waitingBufferTyped s (newRecord a.event).event || (decide
          ((newRecord a.event).event.key = (newRecord a.event).event.key) &&
            (newRecord a.event).event.pressed != (newRecord a.event).event.pressed)) = false := by
        rw [newRecord_event, hnone]
        simp
      exact ⟨fun _ => htyped, fun _ => hrelease hreleased hnone⟩
    | cons x xs =>
      dsimp only at hr
      rw [hws, List.cons_append, List.head?_cons, Option.some.injEq] at hr
      subst hr
      have hfront := h.front x (by rw [hws]; rfl) hreleased
      constructor
      · intro hpermissive
        rw [hfront.1 hpermissive, Bool.false_or]
        by_cases hpressed : a.pressed = true
        · have hne := hrepress x xs hws hpressed hpermissive hreleased
          have hno : decide (x.event.key = (newRecord a.event).event.key) = false :=
            decide_eq_false hne
          rw [hno, Bool.false_and]
        · have hsame : (x.event.pressed != (newRecord a.event).event.pressed) = false := by
            have ha : (newRecord a.event).event.pressed = false := Bool.eq_false_iff.mpr hpressed
            rw [hreleased, ha]
            rfl
          rw [hsame, Bool.and_false]
      · intro htyped
        rw [Bool.or_eq_false_iff] at htyped
        exact hfront.2 htyped.1

/-- A press that waits has been found by the code if it has come after {lit}`p`. -/
theorem Pending.typed_iff {a : Arrival K} (h : Pending c p old as s) (hrelease : a.pressed = false) :
    waitingBufferTyped s a.event = true ↔
      ∃ b ∈ as, b.event.isEvent = true ∧ b.key = a.key ∧ b.pressed = true := by
  rw [waitingBufferTyped, List.any_eq_true]
  constructor
  · rintro ⟨r, hr, htyped⟩
    rw [Bool.and_eq_true, decide_eq_true_eq, bne_iff_ne] at htyped
    rcases h.waiting r hr with ⟨b, hb, hevent, rfl⟩
    refine ⟨b, hb, hevent, htyped.1.symm, ?_⟩
    have hne : ¬ b.pressed = false := fun heq => htyped.2 (hrelease.trans heq.symm)
    exact Bool.of_not_eq_false hne
  · rintro ⟨b, hb, hevent, hkey, hpressed⟩
    refine ⟨newRecord b.event, h.presses b hb hevent hpressed, ?_⟩
    rw [Bool.and_eq_true, decide_eq_true_eq, bne_iff_ne]
    refine ⟨hkey.symm, fun heq => ?_⟩
    exact Bool.false_ne_true (hrelease.symm.trans (heq.trans hpressed))

theorem Pending.filter_waiting (h : Pending c p old as s) :
    s.waitingBuffer.filter (fun r => r.event.key = p.event.key) = [] := by
  rw [List.filter_eq_nil_iff]
  intro r hr
  rcases h.waiting r hr with ⟨a, ha, hevent, rfl⟩
  exact fun hkey => h.others a ha hevent (of_decide_eq_true hkey)

/-- An event of another key within the tapping term. -/
theorem Pending.event_other {a : Arrival K} {tk : KeyRecord K} (h : Pending c p old as s)
    (hreal : p.event.isEvent = true) (htk : s.tappingKey = some tk) (hpe : tk.event = p.event)
    (hundecided : tk.Undecided) (hfull : ¬ Overflows c s a.event)
    (hrepress : ¬ RepressesRetained c p s a) (hwithin : withinTappingTerm c tk a.event = true)
    (htime : p.time ≤ a.time ∧ a.time < p.time + c.tappingTerm p.key)
    (hevent : a.event.isEvent = true) (hother : a.key ≠ p.key) :
    if Settles c p as a then Decided p.event old false [] (processEvent c s a.event)
      else Pending c p old (as ++ [a]) (processEvent c s a.event) := by
  have hkey : tk.event.key = p.key := by rw [hpe]; rfl
  have hne : (newRecord a.event).event.key ≠ tk.event.key := by rwa [hkey]
  have hnoevent : eventsOf p.event.key [a.event] = [] := eventsOf_other fun _ => hother
  have hnoturn : a.event.isEvent = true → a.event.key = p.event.key → a.event.pressed = false :=
    fun _ heq => absurd heq hother
  have hstep := processTapping_undecided (c := c) (r := newRecord a.event) htk hundecided hwithin
    hevent
  have hown : ¬ ((newRecord a.event).event.key = tk.event.key ∧
      (newRecord a.event).event.pressed = false) := fun h => hne h.1
  by_cases hsettles : Settles c p as a
  · rw [if_pos hsettles]
    rcases hsettles.2.2 with ⟨hpressed, hhold⟩ | ⟨hrelease, hpermissive, hbefore⟩
    · -- hold on other key press
      have hnot : ¬ (newRecord a.event).event.pressed = false :=
        fun h => Bool.false_ne_true (h.symm.trans hpressed)
      have hhold' : processTapping c (newRecord a.event) s = (false, newRecord a.event,
          (s.processRecord tk.setInterrupted).setTappingKey none) := by
        rw [hstep, processUndecided, if_neg hown, if_neg fun h => hnot h.1,
          if_neg fun h => hnot h.1, if_pos (show (newRecord a.event).event.pressed = true from
          hpressed), hkey, if_pos hhold]
      have hdone := decided_of_hold hfull hhold' hpe hundecided.2 hreal h.records h.filter_waiting
        hnoturn
      rwa [hnoevent] at hdone
    · -- permissive hold
      have htyped : (newRecord a.event).event.pressed = false ∧
          waitingBufferTyped s (newRecord a.event).event = true ∧
            c.permissiveHold tk.event.key = true :=
        ⟨hrelease, (h.typed_iff hrelease).mpr hbefore, hkey ▸ hpermissive⟩
      have hhold' : processTapping c (newRecord a.event) s =
          (false, newRecord a.event, (s.processRecord tk).setTappingKey none) := by
        rw [hstep, processUndecided, if_neg hown, if_pos htyped]
      have hdone := decided_of_hold hfull hhold' hpe hundecided.2 hreal h.records h.filter_waiting
        hnoturn
      rwa [hnoevent] at hdone
  · rw [if_neg hsettles]
    have hpress : a.pressed = true → c.holdOnOtherKeyPress p.key = false := by
      intro hpressed
      rw [← Bool.not_eq_true]
      exact fun hhold => hsettles ⟨hevent, hother, Or.inl ⟨hpressed, hhold⟩⟩
    have hrelease : a.pressed = false → c.permissiveHold p.key = true →
        waitingBufferTyped s a.event = false := by
      intro hreleased hpermissive
      rw [← Bool.not_eq_true, h.typed_iff hreleased]
      exact fun hbefore =>
        hsettles ⟨hevent, hother, Or.inr ⟨hreleased, hpermissive, hbefore⟩⟩
    have hfront : ∀ r rs, s.waitingBuffer = r :: rs → a.pressed = true →
        c.permissiveHold p.key = true → r.event.pressed = false → r.event.key ≠ a.key := by
      intro r rs hws hpressed hpermissive hreleased hsame
      apply hrepress
      refine ⟨hevent, hpressed, hpermissive, hpress hpressed, htime.2, ?_⟩
      rw [htk, hws]
      exact ⟨hpe, hundecided.2, hreleased, hsame⟩
    have hcount : tk.setInterrupted.tap.count = 0 := hundecided.2
    rw [processUndecided_keeps hne (by rwa [hkey]) (by rwa [hkey])] at hstep
    have hreal' : ¬ a.event.isEvent = false := by simp [hevent]
    rw [processEvent_eq hfull, hstep]
    by_cases hpressed : a.pressed = true
    · rw [if_pos (show (newRecord a.event).event.pressed = true from hpressed)]
      dsimp only
      rw [if_neg fun h => h.elim Bool.false_ne_true hreal']
      exact h.enqueue hevent hother htime hpe hcount hpress
        (fun hreleased => absurd (hreleased.symm.trans hpressed) Bool.false_ne_true) hfront
    · have hreleased := Bool.eq_false_iff.mpr hpressed
      rw [if_neg (show ¬ (newRecord a.event).event.pressed = true from hpressed)]
      by_cases hleave : waitingBufferTyped s (newRecord a.event).event = false ∧
          c.retained (newRecord a.event).event.key (newRecord a.event).tap.count = false
      · rw [if_pos hleave]
        dsimp only
        rw [if_pos (Or.inl rfl)]
        exact h.pass (fun _ => hother) htime (fun _ => hreleased) rfl (recordsOf_other hother) rfl
      · rw [if_neg hleave]
        dsimp only
        rw [if_neg fun h => h.elim Bool.false_ne_true hreal']
        have hkept : a.pressed = false → waitingBufferTyped s a.event = false →
            c.retained a.key 0 = true :=
          fun _ hbefore => Bool.of_not_eq_false fun hnot => hleave ⟨hbefore, hnot⟩
        have hnext := h.enqueue hevent hother htime hpe hundecided.2 hpress hkept hfront
        rwa [← htk] at hnext

/-- One event while nothing is decided. -/
theorem Pending.event {a : Arrival K} (h : Pending c p old as s)
    (hreal : p.event.isEvent = true) (hpressed : p.pressed = true)
    (hfull : ¬ Overflows c s a.event) (hrepress : ¬ RepressesRetained c p s a)
    (hle : p.time ≤ a.time) (hlt : a.time < p.time + 2 ^ 15)
    (hturn : a.event.isEvent = true → a.key = p.key → a.pressed = false) :
    match judge c p as a with
    | none => Pending c p old (as ++ [a]) (processEvent c s a.event)
    | some b => Decided p.event old b (eventsOf p.key [a.event]) (processEvent c s a.event) := by
  rcases h.tappingKey with ⟨tk, htk, hpe, hcount⟩
  have hundecided : tk.Undecided := ⟨by rw [hpe]; exact hpressed, hcount⟩
  have hwithin := withinTappingTerm_iff (c := c) hpe hle hlt
  by_cases htime : a.time < p.time + c.tappingTerm p.key
  · by_cases hevent : a.event.isEvent = true
    · by_cases hown : a.key = p.key
      · -- the release of the key
        have hrelease := hturn hevent hown
        have hkey : (newRecord a.event).event.key = tk.event.key := by rw [hpe]; exact hown
        have hstep : processTapping c (newRecord a.event) s =
            (false, { newRecord a.event with tap := (tk.setCount 1).tap },
              (s.setTappingKey (some (tk.setCount 1))).processRecord (tk.setCount 1)) := by
          rw [processTapping_undecided (r := newRecord a.event) htk hundecided (hwithin.mpr htime)
            hevent, processUndecided, if_pos ⟨hkey, hrelease⟩]
        rw [judge_release htime ⟨hevent, hown, hrelease⟩]
        exact decided_of_tap hfull hstep hpe hpressed hreal h.records h.filter_waiting hevent hown
          hrelease
      · rw [judge_other htime fun _ => hown]
        have hnext := h.event_other hreal htk hpe hundecided hfull hrepress (hwithin.mpr htime)
          ⟨hle, htime⟩ hevent hown
        by_cases hsettles : Settles c p as a
        · rw [if_pos hsettles] at hnext ⊢
          rwa [eventsOf_other fun _ => hown]
        · rwa [if_neg hsettles] at hnext ⊢
    · -- a tick
      have hsettles : ¬ Settles c p as a := fun hs => hevent hs.1
      have hstep : processTapping c (newRecord a.event) s = (true, newRecord a.event, s) := by
        rw [processTapping, htk]
        dsimp only
        rw [if_pos hundecided.1, processPressed, if_pos hcount,
          if_pos (show withinTappingTerm c tk (newRecord a.event).event = true from
            hwithin.mpr htime), if_neg (show ¬ (newRecord a.event).event.isEvent = true from hevent)]
      rw [judge_other htime fun h => absurd h hevent, if_neg hsettles, processEvent_eq hfull, hstep]
      dsimp only
      rw [if_pos (Or.inl rfl)]
      exact h.pass (fun h => absurd h hevent) ⟨hle, htime⟩ (fun h => absurd h hevent) rfl rfl rfl
  · -- the tapping term is over
    have hstep : processTapping c (newRecord a.event) s =
        (false, newRecord a.event, (s.processRecord tk).setTappingKey none) := by
      rw [processTapping, htk]
      dsimp only
      rw [if_pos hundecided.1, processPressed, if_pos hcount,
        if_neg (show ¬ withinTappingTerm c tk (newRecord a.event).event = true from
          fun h => htime (hwithin.mp h))]
    rw [judge_late htime]
    exact decided_of_hold hfull hstep hpe hcount hreal h.records h.filter_waiting hturn

end Pending

/-! ## Runs -/

/-- One call of {lit}`action_tapping_process`, with the time of the event in full. -/
def arrive (c : Config K) (s : State K) (a : Arrival K) : State K :=
  actionTappingProcess c s a.event

/-- The buffer does not overflow, no event of the key of {lit}`p` overtakes, and no release
that is retained is taken for one that comes after {lit}`p`. -/
def Unhindered (c : Config K) (p : Arrival K) (s : State K) (a : Arrival K) : Prop :=
  ¬ Overflows c s a.event ∧ ¬ (a.key = p.key ∧ Overtakes c s a.event) ∧ ¬ RepressesRetained c p s a

instance (c : Config K) (p : Arrival K) (s : State K) (a : Arrival K) :
    Decidable (Unhindered c p s a) :=
  inferInstanceAs (Decidable (_ ∧ _))

/-- The state follows the rule after the press {lit}`p` and the events {lit}`as`. -/
def Follows (c : Config K) (p : Arrival K) (old : List (KeyRecord K)) (as : List (Arrival K))
    (s : State K) : Prop :=
  s.Fresh ∧ match verdict c p as with
    | none => Pending c p old as s
    | some b => Decided p.event old b (eventsOf p.key (as.map Arrival.event)) s

section Runs

variable {s : State K} {old : List (KeyRecord K)} {as : List (Arrival K)}

theorem processEvent_fresh {e : KeyEvent K} (hfresh : s.Fresh) (hfull : ¬ Overflows c s e) :
    (processEvent c s e).Fresh := by
  have hflow := processTapping_flow c s (fresh_newRecord e)
  have hkeep := hflow.waiting_fresh hfresh
  rw [processEvent_eq hfull]
  split_ifs with hcase
  · exact hkeep
  · have hrefuse : (processTapping c (newRecord e) s).1 = false :=
      Bool.eq_false_iff.mpr fun h => hcase (Or.inl h)
    exact List.forall_mem_append.mpr
      ⟨hkeep, List.forall_mem_singleton.mpr (hflow.fresh hrefuse (fresh_newRecord e))⟩

/-- The drain changes nothing about the decision. -/
theorem Follows.drain (hterm : c.tappingTerm p.key ≤ 2 ^ 15) (hpressed : p.pressed = true)
    (h : Follows c p old as s) (n : ℕ) : Follows c p old as (drain c n s) := by
  apply drain_invariant (Follows c p old as) _ n h
  rintro s r rs hwaiting ⟨hfresh, hs⟩
  have hr : r.Fresh := hfresh r (hwaiting ▸ List.mem_cons_self)
  refine ⟨(drainRound_all hwaiting hfresh).1, ?_⟩
  cases hverdict : verdict c p as with
  | none =>
    rw [hverdict] at hs
    exact hs.drainRound hterm hpressed hwaiting
  | some b =>
    rw [hverdict] at hs
    exact hs.drainRound (fun e he => by
      rw [eventsOf, List.mem_filter, Bool.and_eq_true] at he
      exact he.2.1) hwaiting hr

/-- The events of a key, with one more. -/
theorem eventsOf_snoc (k : K) (as : List (Arrival K)) (a : Arrival K) :
    eventsOf k ((as ++ [a]).map Arrival.event) =
      eventsOf k (as.map Arrival.event) ++ eventsOf k [a.event] := by
  rw [List.map_append, eventsOf_append, List.map_singleton]

/-- One event. -/
theorem Follows.arrive {a : Arrival K} (hterm : c.tappingTerm p.key ≤ 2 ^ 14)
    (hreal : p.event.isEvent = true) (hpressed : p.pressed = true) (h : Follows c p old as s)
    (hstep : Unhindered c p s a) (hspaced : Spaced (p :: (as ++ [a])))
    (halt : Alternating (eventsOf p.key ((p :: (as ++ [a])).map Arrival.event))) :
    Follows c p old (as ++ [a]) (arrive c s a) := by
  rcases h with ⟨hfresh, hs⟩
  rcases hstep with ⟨hfull, horder, hrepress⟩
  have hp : eventsOf p.key [p.event] = [p.event] := eventsOf_own hreal rfl
  rw [List.map_cons, ← List.singleton_append, eventsOf_append, hp, eventsOf_snoc,
    List.singleton_append] at halt
  apply Follows.drain (Nat.le_trans hterm (by decide)) hpressed
  refine ⟨processEvent_fresh hfresh hfull, ?_⟩
  cases hverdict : verdict c p as with
  | some b =>
    rw [hverdict] at hs
    rw [verdict_append_some hverdict, eventsOf_snoc]
    by_cases hown : a.event.isEvent = true ∧ a.key = p.key
    · have hone : eventsOf p.key [a.event] = [a.event] := eventsOf_own hown.1 hown.2
      rw [hone] at halt ⊢
      exact hs.processEvent_own hpressed (fun e he => by
        rw [eventsOf, List.mem_filter, Bool.and_eq_true] at he
        exact he.2.1) hfull (fun h => horder ⟨hown.2, h⟩) hown.1 hown.2 halt
    · rw [eventsOf_other fun hevent hkey => hown ⟨hevent, hkey⟩, List.append_nil]
      exact hs.processEvent_other hfull fun hevent hkey => hown ⟨hevent, hkey⟩
  | none =>
    rw [hverdict] at hs
    have hnone : eventsOf p.key (as.map Arrival.event) = [] := by
      rw [eventsOf, List.filter_eq_nil_iff]
      intro e he
      rcases List.mem_map.mp he with ⟨x, hx, rfl⟩
      rw [Bool.and_eq_true, decide_eq_true_eq]
      exact fun hown => hs.others x hx hown.1 hown.2
    rw [hnone, List.nil_append] at halt
    have hturn : a.event.isEvent = true → a.key = p.key → a.pressed = false := by
      intro hevent hkey
      have hone : eventsOf p.key [a.event] = [a.event] := eventsOf_own hevent hkey
      rw [hone, Alternating, List.isChain_pair] at halt
      exact Bool.eq_false_iff.mpr fun h => halt (hpressed.trans h.symm)
    have hle : p.time ≤ a.time :=
      (List.pairwise_cons.mp hspaced.pairwise).1 a (List.mem_append_right _ List.mem_cons_self)
    have hlt : a.time < p.time + 2 ^ 15 := by
      rw [Spaced, ← List.cons_append, List.isChain_append] at hspaced
      rcases List.eq_nil_or_concat as with rfl | ⟨xs, x, rfl⟩
      · have hgap := hspaced.2.2 p rfl a rfl
        exact Nat.lt_trans hgap.2 (Nat.add_lt_add_left (by decide) p.time)
      · rw [List.concat_eq_append] at hspaced hs
        have hend : (p :: (xs ++ [x])).getLast? = some x := by
          rw [← List.cons_append, List.getLast?_concat]
        have hgap := hspaced.2.2 x hend a rfl
        have htime := (hs.inTime x (by simp)).2
        have hmiddle : x.time + 2 ^ 14 ≤ p.time + c.tappingTerm p.key + 2 ^ 14 :=
          Nat.add_le_add_right (Nat.le_of_lt htime) _
        have hlast : p.time + c.tappingTerm p.key + 2 ^ 14 ≤ p.time + 2 ^ 15 := by
          rw [Nat.add_assoc]
          exact Nat.add_le_add_left (Nat.add_le_add_right hterm _) p.time
        exact Nat.lt_of_lt_of_le hgap.2 (Nat.le_trans hmiddle hlast)
    have hnext := hs.event hreal hpressed hfull hrepress hle hlt hturn
    rw [verdict_append_none hverdict, eventsOf_snoc, hnone, List.nil_append]
    exact hnext

/-- The press itself, from the reset state. -/
theorem follows_press (hkey : s.tappingKey = none) (hwaiting : s.waitingBuffer = [])
    (hreal : p.event.isEvent = true) (hpressed : p.pressed = true)
    (htap : c.isTapRecord p.key = true) :
    Follows c p (s.recordsOf p.key) [] (arrive c s p) := by
  have hscan : waitingBufferScanTap c (newRecord p.event)
      (s.setTappingKey (some (newRecord p.event))) =
        s.setTappingKey (some (newRecord p.event)) := by
    have hundecided : (newRecord p.event).Undecided := ⟨hpressed, rfl⟩
    rcases @scan_cases _ _ c (newRecord p.event) s hundecided with hscan | ⟨waiting, hmark, -⟩
    · exact hscan
    · rw [hwaiting] at hmark
      exact absurd hmark.symm (Option.some_ne_none waiting)
  have hevent : processEvent c s p.event = s.setTappingKey (some (newRecord p.event)) := by
    apply processEvent_accepted
    rw [processTapping, hkey]
    dsimp only
    rw [processReset, if_pos (show (newRecord p.event).event.isEvent = true from hreal),
      if_pos ⟨hpressed, htap⟩, hscan]
  have hnowait : (s.setTappingKey (some (newRecord p.event))).waitingBuffer = [] := hwaiting
  have hnone : ∀ r ∈ (s.setTappingKey (some (newRecord p.event))).waitingBuffer, False := by
    rw [hnowait]
    exact fun r h => absurd h List.not_mem_nil
  have hdrain : arrive c s p = s.setTappingKey (some (newRecord p.event)) := by
    rw [Tapping.arrive, actionTappingProcess, hevent, hnowait]
    rfl
  rw [hdrain]
  refine ⟨fun r hr => absurd hr (hnone r), ?_⟩
  exact {
    tappingKey := ⟨newRecord p.event, rfl, rfl, rfl⟩
    records := rfl
    others := fun a h => absurd h List.not_mem_nil
    inTime := fun a h => absurd h List.not_mem_nil
    waiting := fun r hr => absurd hr (hnone r)
    presses := fun a h => absurd h List.not_mem_nil
    noHold := fun r hr => absurd hr (hnone r)
    front := fun r hr => by
      rw [hnowait] at hr
      exact absurd hr.symm (Option.some_ne_none r) }

/-- What the invariant says about the records. -/
theorem Follows.records (hspaced : Spaced as) (h : Follows c p old as s) :
    ∃ rs, s.recordsOf p.key = old ++ rs ∧
      (∀ rp ∈ rs.head?, rp.event = p.event ∧ (0 < rp.tap.count ↔ TapsInTime c p as)) ∧
      (∀ rq ∈ rs[1]?, (eventsOf p.key (as.map Arrival.event)).head? = some rq.event ∧
        (0 < rq.tap.count ↔ TapsInTime c p as)) ∧
      (rs = [] → ∀ first a rest, as = first ++ a :: rest →
        a.time < p.time + c.tappingTerm p.key ∧ ¬ Releases p a ∧ ¬ Settles c p first a) ∧
      (rs.length < 2 → eventsOf p.key (as.map Arrival.event) = [] ∨
        ∃ r ∈ s.waitingBuffer, r.event.key = p.key) := by
  have hrule := verdict_iff (c := c) (p := p) hspaced
  rcases h with ⟨-, hs⟩
  cases hverdict : verdict c p as with
  | none =>
    rw [hverdict] at hs
    refine ⟨[], by rw [hs.records, List.append_nil], by rintro _ ⟨⟩, by rintro _ ⟨⟩,
      fun _ first a rest has => verdict_none hverdict has, fun _ => Or.inl ?_⟩
    rw [eventsOf, List.filter_eq_nil_iff]
    intro e he
    rcases List.mem_map.mp he with ⟨x, hx, rfl⟩
    rw [Bool.and_eq_true, decide_eq_true_eq]
    exact fun hown => hs.others x hx hown.1 hown.2
  | some b =>
    rw [hverdict] at hs hrule
    have hb : b = true ↔ TapsInTime c p as := by
      rw [← hrule, Option.some.injEq]
    cases hs with
    | down rp hpress hcount hrecords hhold hes hwaiting hkey =>
      refine ⟨[rp], hrecords, ?_, by rintro _ ⟨⟩, by rintro ⟨⟩, fun _ => Or.inl hes⟩
      rintro rp' ⟨⟩
      exact ⟨hpress, hcount.trans hb⟩
    | waits rp rq rs hpress hcount hrecords hsame hrelease hwaiting hes hkey =>
      refine ⟨[rp], hrecords, ?_, by rintro _ ⟨⟩, by rintro ⟨⟩, fun _ => Or.inr ⟨rq, ?_⟩⟩
      · rintro rp' ⟨⟩
        exact ⟨hpress, hcount.trans hb⟩
      · have hmem : rq ∈ s.waitingBuffer.filter (fun r => r.event.key = p.event.key) := by
          rw [hwaiting]
          exact List.mem_cons_self
        rw [List.mem_filter, decide_eq_true_eq] at hmem
        exact hmem
    | up hreleased =>
      rcases hreleased with ⟨rp, rq, rest, hpress, hcount, hrecords, hsame, hes⟩
      refine ⟨rp :: rq :: rest, hrecords, ?_, ?_, by rintro ⟨⟩, fun hlt => ?_⟩
      · rintro rp' ⟨⟩
        exact ⟨hpress, hcount.trans hb⟩
      · rintro rq' ⟨⟩
        exact ⟨hes, hsame.trans hb⟩
      · rw [List.length_cons, List.length_cons] at hlt
        omega

/-- A tap-hold key that is pressed in the reset state is processed as the rule says, and its
release in the same way.  The press is kept back only as long as nothing decides about it,
and the release as long as it waits in the buffer. -/
theorem run_decision (hterm : c.tappingTerm p.key < 2 ^ 14) (hkey : s.tappingKey = none)
    (hwaiting : s.waitingBuffer = []) (hreal : p.event.isEvent = true) (hpressed : p.pressed = true)
    (htap : c.isTapRecord p.key = true) (hspaced : Spaced (p :: as))
    (halt : Alternating (eventsOf p.key ((p :: as).map Arrival.event)))
    (hsafe : StateMachine.Along (arrive c) (Unhindered c p) s (p :: as)) :
    ∃ rs, (StateMachine.run (arrive c) s (p :: as)).recordsOf p.key = s.recordsOf p.key ++ rs ∧
      (∀ rp ∈ rs.head?, rp.event = p.event ∧ (0 < rp.tap.count ↔ TapsInTime c p as)) ∧
      (∀ rq ∈ rs[1]?, (eventsOf p.key (as.map Arrival.event)).head? = some rq.event ∧
        (0 < rq.tap.count ↔ TapsInTime c p as)) ∧
      (rs = [] → ∀ first a rest, as = first ++ a :: rest →
        a.time < p.time + c.tappingTerm p.key ∧ ¬ Releases p a ∧ ¬ Settles c p first a) ∧
      (rs.length < 2 → eventsOf p.key (as.map Arrival.event) = [] ∨
        ∃ r ∈ (StateMachine.run (arrive c) s (p :: as)).waitingBuffer, r.event.key = p.key) := by
  have hfollows : Follows c p (s.recordsOf p.key) as
      (StateMachine.run (arrive c) (arrive c s p) as) := by
    apply StateMachine.run_history (Follows c p (s.recordsOf p.key))
      (fun as => Spaced (p :: as) ∧
        Alternating (eventsOf p.key ((p :: as).map Arrival.event))) _ _ _ hsafe.2 ⟨hspaced, halt⟩
    · rintro is a ⟨hspaced, halt⟩
      rw [Spaced, ← List.cons_append, List.isChain_append] at hspaced
      rw [← List.cons_append, eventsOf_snoc, Alternating, List.isChain_append] at halt
      exact ⟨hspaced.1, halt.1⟩
    · rintro is s a h hstep ⟨hspaced, halt⟩
      exact h.arrive (Nat.le_of_lt hterm) hreal hpressed hstep hspaced halt
    · exact follows_press hkey hwaiting hreal hpressed htap
  exact hfollows.records (List.isChain_cons.mp hspaced).2

/-! ## A retained release -/

/-- A modifier, whose release is retained, and a tap-hold key with permissive hold. -/
def modifierAndTap : Config (Fin 2) where
  tappingTerm _ := 200
  quickTapTerm _ := 200
  permissiveHold _ := true
  holdOnOtherKeyPress _ := false
  isTapRecord k := k = 1
  retained k _ := k = 0

/-- A key event. -/
def arrival (k : Fin 2) (time : ℕ) (pressed : Bool) : Arrival (Fin 2) where
  key := k
  time := time
  type := .key
  pressed := pressed

/-- The modifier goes up while the tap-hold key is down, which is tapped. -/
theorem run_decision_tap :
    ∃ rs, (StateMachine.run (arrive modifierAndTap) initial
        [arrival 1 10 true, arrival 0 20 false, arrival 1 40 false]).recordsOf 1 = [] ++ rs ∧
      ∀ rp ∈ rs.head?, 0 < rp.tap.count ↔ TapsInTime modifierAndTap (arrival 1 10 true)
        [arrival 0 20 false, arrival 1 40 false] := by
  have hspaced : Spaced [arrival 1 10 true, arrival 0 20 false, arrival 1 40 false] := by
    simp [Spaced, arrival]
  rcases run_decision (c := modifierAndTap) (s := initial) (by decide) rfl rfl (by decide) rfl
    (by decide) hspaced (by decide) (by decide) with ⟨rs, hrecords, hpress, -⟩
  exact ⟨rs, hrecords, fun rp hrp => (hpress rp hrp).2⟩

/-- The modifier, pressed before the tap-hold key, goes up and down again while that is
down, and no key but the tap-hold key is released after that.  It is taken for a hold. -/
theorem not_decision_repressed :
    let before := StateMachine.run (arrive modifierAndTap) initial [arrival 0 0 true]
    let p := arrival 1 10 true
    let as := [arrival 0 20 false, arrival 0 30 true, arrival 1 40 false]
    before.tappingKey = none ∧ before.waitingBuffer = [] ∧ Spaced (arrival 0 0 true :: p :: as) ∧
      StateMachine.Along (arrive modifierAndTap)
        (fun s a => ¬ Overflows modifierAndTap s a.event) before (p :: as) ∧
      TapsInTime modifierAndTap p as ∧
      ((StateMachine.run (arrive modifierAndTap) before (p :: as)).recordsOf 1).map
        (fun r => (r.event, r.tap.count)) = [(p.event, 0), ((arrival 1 40 false).event, 0)] := by
  intro before p as
  have hspaced : Spaced (arrival 0 0 true :: p :: as) := by
    simp [p, as, Spaced, arrival]
  have hspaced' : Spaced as := by
    simp [as, Spaced, arrival]
  exact ⟨by decide, by decide, hspaced, by decide, (verdict_iff hspaced').mp (by decide), by decide⟩

end Runs

end Tapping
end VialQmk