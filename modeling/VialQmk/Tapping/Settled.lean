import VialQmk.Tapping.Delivery

/-!
# Tapping - after the decision

Once a press is settled its record is processed, and the record of its release carries the
same decision through the buffer, whatever tapping keys come and go meanwhile.

Main results:

- Definition {lit}`Decided`: what has become of the press and its release.
- Theorem {lit}`Decided.drainRound`: the drain keeps the decision.
- Theorem {lit}`Decided.processEvent_own`: so does an event of the key that does not
  overtake.
-/

namespace VialQmk
namespace Tapping

variable {K : Type} [DecidableEq K] {c : Config K}

/-! ## The records of a key -/

/-- The record of the call, if it is one of this key. -/
def Call.recordOf (k : K) : Call K → Option (KeyRecord K)
  | record r => if r.event.isEvent = true ∧ r.event.key = k then some r else none
  | madeUp _ => none

/-- The records of a key that were processed. -/
def State.recordsOf (s : State K) (k : K) : List (KeyRecord K) :=
  s.calls.filterMap (Call.recordOf k)

section Records

variable {s : State K} {r : KeyRecord K} {k : K}

theorem recordsOf_own (hevent : r.event.isEvent = true) (hkey : r.event.key = k) :
    (s.processRecord r).recordsOf k = s.recordsOf k ++ [r] := by
  simp [State.recordsOf, State.processRecord, Call.recordOf, hevent, hkey]

theorem recordsOf_other (hkey : r.event.key ≠ k) :
    (s.processRecord r).recordsOf k = s.recordsOf k := by
  simp [State.recordsOf, State.processRecord, Call.recordOf, hkey]

/-- A step adds to the records of a key. -/
theorem Trace.recordsOf_append {res : Bool × KeyRecord K × State K} (h : Trace s r res) (k : K) :
    ∃ rs, res.2.2.recordsOf k = s.recordsOf k ++ rs := by
  rcases h.calls with ⟨cs, hcalls, -⟩
  exact ⟨cs.filterMap (Call.recordOf k), by rw [State.recordsOf, hcalls, List.filterMap_append]; rfl⟩

/-- It adds none if neither the record at hand nor an unsettled tapping key is one of it. -/
theorem Trace.recordsOf_eq {res : Bool × KeyRecord K × State K} (h : Trace s r res)
    (hr : res.1 = true → r.event.isEvent = true → r.event.key ≠ k)
    (htk : ∀ tk, s.tappingKey = some tk → tk.Undecided → tk.event.key ≠ k) :
    res.2.2.recordsOf k = s.recordsOf k := by
  rcases h.calls with ⟨cs, hcalls, hfrom⟩
  have hnone : cs.filterMap (Call.recordOf k) = [] := by
    rw [List.filterMap_eq_nil_iff]
    intro call hcall
    cases call with
    | madeUp x => rfl
    | record x =>
      have hother : ¬ (x.event.isEvent = true ∧ x.event.key = k) := by
        rintro ⟨hevent, hkey⟩
        rcases hfrom x hcall with ⟨haccept, hsame⟩ | ⟨tk, hsome, hundecided, hsame⟩
        · rw [hsame] at hevent hkey
          exact hr haccept hevent hkey
        · rw [hsame] at hkey
          exact htk tk hsome hundecided hkey
      rw [Call.recordOf, if_neg hother]
  rw [State.recordsOf, hcalls, List.filterMap_append, hnone, List.append_nil]
  rfl

/-! ## One release -/

/-- A release that is processed, and is not one of the tapping key, changes nothing else. -/
theorem processTapping_release (hevent : r.event.isEvent = true) (hrelease : r.event.pressed = false)
    (hother : ∀ tk, s.tappingKey = some tk → tk.event.key ≠ r.event.key)
    (haccept : (processTapping c r s).1 = true) :
    processTapping c r s = (true, r, s.processRecord r) := by
  have hnot : ¬ r.event.pressed = true := Bool.eq_false_iff.mp hrelease
  unfold processTapping at haccept ⊢
  cases htk : s.tappingKey with
  | none =>
    dsimp only
    rw [processReset, if_pos hevent, if_neg fun h => hnot h.1]
  | some tk =>
    have hown : ¬ (r.event.key = tk.event.key ∧ r.event.pressed = false) :=
      fun h => hother tk htk h.1.symm
    simp only [htk] at haccept ⊢
    by_cases hpressed : tk.event.pressed = true
    · rw [if_pos hpressed] at haccept ⊢
      unfold processPressed at haccept ⊢
      by_cases hcount : tk.tap.count = 0
      · rw [if_pos hcount] at haccept ⊢
        by_cases hwithin : withinTappingTerm c tk r.event = true
        · rw [if_pos hwithin, if_pos hevent] at haccept ⊢
          unfold processUndecided at haccept ⊢
          dsimp only at haccept ⊢
          rw [if_neg hown] at haccept ⊢
          split_ifs at haccept ⊢
          rfl
        · rw [if_neg hwithin] at haccept
          exact absurd haccept Bool.false_ne_true
      · rw [if_neg hcount, if_pos hevent, processTapped]
        dsimp only
        rw [if_neg hown, if_neg fun h => hnot h.2]
    · rw [if_neg hpressed] at haccept ⊢
      unfold processReleased at haccept ⊢
      by_cases hwithin : withinTappingTerm c tk r.event = true
      · rw [if_pos hwithin, if_pos hevent, if_neg hnot]
      · rw [if_neg hwithin] at haccept
        exact absurd haccept Bool.false_ne_true

/-- The release of a tapping key that is settled as a tap takes its count. -/
theorem processTapping_release_tap {tk : KeyRecord K} (htk : s.tappingKey = some tk)
    (hpressed : tk.event.pressed = true) (hcount : 0 < tk.tap.count)
    (hevent : r.event.isEvent = true) (hkey : r.event.key = tk.event.key)
    (hrelease : r.event.pressed = false) :
    ∃ tk', processTapping c r s = (true, { r with tap := tk.tap },
      (s.processRecord { r with tap := tk.tap }).setTappingKey tk') := by
  have hsettled : ¬ tk.tap.count = 0 := Nat.ne_of_gt hcount
  rw [processTapping, htk]
  dsimp only
  rw [if_pos hpressed, processPressed, if_neg hsettled, if_pos hevent, processTapped]
  dsimp only
  rw [if_pos ⟨hkey, hrelease⟩]
  exact ⟨_, rfl⟩

/-- A record that is refused stays as it is, unless it makes the tapping key a tap. -/
theorem processTapping_refused
    (hother : ∀ tk, s.tappingKey = some tk → tk.Undecided → tk.event.key ≠ r.event.key)
    (h : (processTapping c r s).1 = false) : (processTapping c r s).2.1 = r := by
  unfold processTapping at h ⊢
  cases htk : s.tappingKey with
  | none =>
    simp only [htk] at h
    unfold processReset at h
    split_ifs at h
  | some tk =>
    simp only [htk] at h ⊢
    by_cases hpressed : tk.event.pressed = true
    · rw [if_pos hpressed] at h ⊢
      unfold processPressed at h ⊢
      by_cases hcount : tk.tap.count = 0
      · rw [if_pos hcount] at h ⊢
        have hown : ¬ (r.event.key = tk.event.key ∧ r.event.pressed = false) :=
          fun hk => hother tk htk ⟨hpressed, hcount⟩ hk.1.symm
        unfold processUndecided at h ⊢
        dsimp only at h ⊢
        rw [if_neg hown] at h ⊢
        split_ifs at h ⊢ <;> rfl
      · rw [if_neg hcount] at h
        unfold processTapped at h
        dsimp only at h
        split_ifs at h
    · rw [if_neg hpressed] at h ⊢
      unfold processReleased processReleasedPress at h ⊢
      dsimp only at h ⊢
      split_ifs at h ⊢
      rfl

/-- A tick that is accepted changes nothing. -/
theorem processTapping_tick (ht : r.event.isEvent = false)
    (h : (processTapping c r s).1 = true) : (processTapping c r s).2.2 = s := by
  have hnot : ¬ r.event.isEvent = true := Bool.eq_false_iff.mp ht
  unfold processTapping at h ⊢
  cases htk : s.tappingKey with
  | none =>
    dsimp only
    rw [processReset, if_neg hnot]
  | some tk =>
    simp only [htk] at h ⊢
    unfold processPressed processReleased at h ⊢
    simp only [if_neg hnot] at h ⊢
    split_ifs at h ⊢ <;> rfl

end Records

/-! ## After the decision -/

/-- Press and release are processed, both by the verdict {lit}`b`. -/
def Released (p : KeyEvent K) (old : List (KeyRecord K)) (b : Bool) (es : List (KeyEvent K))
    (s : State K) : Prop :=
  ∃ rp rq rest, rp.event = p ∧ (0 < rp.tap.count ↔ b = true) ∧
    s.recordsOf p.key = old ++ rp :: rq :: rest ∧ (0 < rq.tap.count ↔ b = true) ∧
    es.head? = some rq.event

/-- What has become of the press {lit}`p`, settled by the verdict {lit}`b`, and of the
events {lit}`es` of its key that have come since. -/
inductive Decided (p : KeyEvent K) (old : List (KeyRecord K)) (b : Bool) (es : List (KeyEvent K))
    (s : State K) : Prop
  /-- the press is processed, and its release has not come -/
  | down (rp : KeyRecord K) (hpress : rp.event = p) (hverdict : 0 < rp.tap.count ↔ b = true)
      (hrecords : s.recordsOf p.key = old ++ [rp]) (hhold : b = false) (hes : es = [])
      (hwaiting : s.waitingBuffer.filter (fun r => r.event.key = p.key) = [])
      (hkey : ∀ tk, s.tappingKey = some tk → tk.event.key ≠ p.key)
  /-- the release waits in the buffer -/
  | waits (rp rq : KeyRecord K) (rs : List (KeyRecord K)) (hpress : rp.event = p)
      (hverdict : 0 < rp.tap.count ↔ b = true) (hrecords : s.recordsOf p.key = old ++ [rp])
      (hsame : 0 < rq.tap.count ↔ b = true) (hrelease : rq.event.pressed = false)
      (hwaiting : s.waitingBuffer.filter (fun r => r.event.key = p.key) = rq :: rs)
      (hes : (rq :: rs).map KeyRecord.event = es)
      (hkey : ∀ tk, s.tappingKey = some tk → tk.event.key ≠ p.key ∨
        b = true ∧ tk.event.pressed = true ∧ 0 < tk.tap.count)
  /-- the release is processed -/
  | up (hreleased : Released p old b es s)

section Decided

variable {p : KeyEvent K} {old : List (KeyRecord K)} {b : Bool} {es : List (KeyEvent K)}
  {s : State K} {r : KeyRecord K}

/-- Only the records of the key in the buffer matter. -/
theorem Decided.withWaiting (h : Decided p old b es s) {rs : List (KeyRecord K)}
    (hrs : rs.filter (fun r => r.event.key = p.key) =
      s.waitingBuffer.filter fun r => r.event.key = p.key) :
    Decided p old b es { s with waitingBuffer := rs } := by
  cases h with
  | down rp hpress hverdict hrecords hhold hes hwaiting hkey =>
    exact .down rp hpress hverdict hrecords hhold hes (hrs.trans hwaiting) hkey
  | waits rp rq rs' hpress hverdict hrecords hsame hrelease hwaiting hes hkey =>
    exact .waits rp rq rs' hpress hverdict hrecords hsame hrelease (hrs.trans hwaiting) hes hkey
  | up hreleased => exact .up hreleased

/-- Once the release is processed, it stays so. -/
theorem Released.more {s' : State K} (h : Released p old b es s)
    (hmore : ∃ rs, s'.recordsOf p.key = s.recordsOf p.key ++ rs) : Released p old b es s' := by
  rcases h with ⟨rp, rq, rest, hpress, hverdict, hrecords, hsame, hes⟩
  rcases hmore with ⟨rs, hrs⟩
  refine ⟨rp, rq, rest ++ rs, hpress, hverdict, ?_, hsame, hes⟩
  rw [hrs, hrecords, List.append_assoc, List.cons_append, List.cons_append]

/-- A record of another key, or one that is refused. -/
theorem Decided.step (h : Decided p old b es s) (hfresh : r.Fresh)
    (hr : (processTapping c r s).1 = true → r.event.isEvent = true → r.event.key ≠ p.key) :
    Decided p old b es (processTapping c r s).2.2 := by
  have htrace := processTapping_trace c s hfresh
  by_cases htick : (processTapping c r s).1 = true ∧ r.event.isEvent = false
  · rw [processTapping_tick htick.2 htick.1]
    exact h
  have hother : (processTapping c r s).1 = true → r.event.key ≠ p.key := by
    intro haccept
    exact hr haccept (Bool.of_not_eq_false fun hevent => htick ⟨haccept, hevent⟩)
  cases h with
  | down rp hpress hverdict hrecords hhold hes hwaiting hkey =>
    refine .down rp hpress hverdict ?_ hhold hes ((htrace.waiting p.key hother).trans hwaiting) ?_
    · rw [htrace.recordsOf_eq hr fun tk htk _ => hkey tk htk, hrecords]
    · intro tk' htk'
      rcases htrace.tappingKey tk' htk' with ⟨haccept, hsame⟩ | ⟨tk, htk, hsame, -⟩
      · rw [hsame]
        exact hother haccept
      · rw [hsame]
        exact hkey tk htk
  | waits rp rq rs hpress hverdict hrecords hsame hrelease hwaiting hes hkey =>
    have hundecided : ∀ tk, s.tappingKey = some tk → tk.Undecided → tk.event.key ≠ p.key := by
      intro tk htk hundecided
      rcases hkey tk htk with hne | ⟨-, -, hcount⟩
      · exact hne
      · exact absurd hundecided.2 (Nat.ne_of_gt hcount)
    refine .waits rp rq rs hpress hverdict ?_ hsame hrelease
      ((htrace.waiting p.key hother).trans hwaiting) hes ?_
    · rw [htrace.recordsOf_eq hr hundecided, hrecords]
    · intro tk' htk'
      rcases htrace.tappingKey tk' htk' with ⟨haccept, heq⟩ | ⟨tk, htk, heq, hcount⟩
      · rw [heq]
        exact Or.inl (hother haccept)
      · rcases hkey tk htk with hne | ⟨hb, hpressed, hpos⟩
        · rw [heq]
          exact Or.inl hne
        · right
          rw [heq, hcount fun hundecided => Nat.ne_of_gt hpos hundecided.2]
          exact ⟨hb, hpressed, hpos⟩
  | up hreleased => exact .up (hreleased.more (htrace.recordsOf_append p.key))

/-- The release that waits is processed. -/
theorem released_of_waits {rp : KeyRecord K} {rest : List (KeyEvent K)} (hpress : rp.event = p)
    (hverdict : 0 < rp.tap.count ↔ b = true) (hrecords : s.recordsOf p.key = old ++ [rp])
    (hsame : 0 < r.tap.count ↔ b = true) (hevent : r.event.isEvent = true)
    (hrelease : r.event.pressed = false) (hown : r.event.key = p.key)
    (hkey : ∀ tk, s.tappingKey = some tk → tk.event.key ≠ p.key ∨
      b = true ∧ tk.event.pressed = true ∧ 0 < tk.tap.count)
    (haccept : (processTapping c r s).1 = true) :
    Released p old b (r.event :: rest) (processTapping c r s).2.2 := by
  by_cases hother : ∀ tk, s.tappingKey = some tk → tk.event.key ≠ r.event.key
  · rw [processTapping_release hevent hrelease hother haccept]
    refine ⟨rp, r, [], hpress, hverdict, ?_, hsame, rfl⟩
    rw [recordsOf_own hevent hown, hrecords, List.append_assoc]
    rfl
  · simp only [not_forall, not_not] at hother
    rcases hother with ⟨tk, htk, hsamekey⟩
    rcases hkey tk htk with hne | ⟨hb, hpressed, hcount⟩
    · exact absurd (hsamekey.trans hown) hne
    · rcases processTapping_release_tap (c := c) htk hpressed hcount hevent hsamekey.symm hrelease
        with ⟨tk', hstep⟩
      rw [hstep]
      refine ⟨rp, { r with tap := tk.tap }, [], hpress, hverdict, ?_, iff_of_true hcount hb, rfl⟩
      have hrecord : ((s.processRecord { r with tap := tk.tap }).setTappingKey tk').recordsOf p.key
          = s.recordsOf p.key ++ [{ r with tap := tk.tap }] := recordsOf_own hevent hown
      rw [hrecord, hrecords, List.append_assoc]
      rfl

/-- The records of the key in the buffer are not settled by the tapping key. -/
theorem Decided.not_own {rs : List (KeyRecord K)} (h : Decided p old b es s)
    (hwaiting : s.waitingBuffer = r :: rs) (hown : r.event.key = p.key) :
    Released p old b es s ∨ ∃ rp rest, rp.event = p ∧ (0 < rp.tap.count ↔ b = true) ∧
      s.recordsOf p.key = old ++ [rp] ∧ (0 < r.tap.count ↔ b = true) ∧ r.event.pressed = false ∧ es = r.event :: rest ∧
      ∀ tk, s.tappingKey = some tk → tk.event.key ≠ p.key ∨
        b = true ∧ tk.event.pressed = true ∧ 0 < tk.tap.count := by
  cases h with
  | down rp hpress hverdict hrecords hhold hes hnone hkey =>
    rw [hwaiting, List.filter_cons_of_pos (by simpa using hown)] at hnone
    exact absurd hnone (List.cons_ne_nil _ _)
  | waits rp rq rs' hpress hverdict hrecords hsame hrelease hfilter hes hkey =>
    rw [hwaiting, List.filter_cons_of_pos (by simpa using hown), List.cons.injEq] at hfilter
    rcases hfilter with ⟨rfl, -⟩
    exact Or.inr ⟨rp, _, hpress, hverdict, hrecords, hsame, hrelease, hes.symm, hkey⟩
  | up hreleased => exact Or.inl hreleased

/-- A round of the drain. -/
theorem Decided.drainRound {rs : List (KeyRecord K)} (h : Decided p old b es s)
    (hes : ∀ e ∈ es, e.isEvent = true) (hwaiting : s.waitingBuffer = r :: rs) (hfresh : r.Fresh) :
    Decided p old b es (drainRound c r s).2 := by
  have htrace := processTapping_trace c s hfresh
  have hflow := processTapping_flow c s hfresh
  have hevents := hflow.waiting
  rw [hwaiting, List.map_cons] at hevents
  rcases List.exists_cons_of_ne_nil (l := (processTapping c r s).2.2.waitingBuffer)
    (fun hnil => by simp [hnil] at hevents) with ⟨r₀, rs', hwaiting'⟩
  rw [hwaiting', List.map_cons, List.cons.injEq] at hevents
  unfold Tapping.drainRound
  dsimp only
  by_cases hown : r.event.key = p.key
  · rcases h.not_own hwaiting hown with
      hreleased | ⟨rp, rest, hpress, hverdict, hrecords, hsame, hrelease, hfirst, hkey⟩
    · have hmore : Released p old b es (processTapping c r s).2.2 :=
        hreleased.more (htrace.recordsOf_append p.key)
      split_ifs
      · exact .up hmore
      · exact .up hmore
    · have hevent : r.event.isEvent = true := hes r.event (hfirst ▸ List.mem_cons_self)
      by_cases haccept : (processTapping c r s).1 = true
      · rw [if_pos haccept, hfirst]
        exact .up (released_of_waits hpress hverdict hrecords hsame hevent hrelease hown hkey haccept)
      · rw [if_neg haccept]
        have hundecided : ∀ tk, s.tappingKey = some tk → tk.Undecided →
            tk.event.key ≠ r.event.key := by
          intro tk htk hundecided hsamekey
          rcases hkey tk htk with hne | ⟨-, -, hcount⟩
          · exact hne (hsamekey.trans hown)
          · exact absurd hundecided.2 (Nat.ne_of_gt hcount)
        have hstay := processTapping_refused (c := c) hundecided (Bool.eq_false_iff.mpr haccept)
        have hrest := htrace.waiting p.key fun h => absurd h haccept
        apply (h.step hfresh fun h => absurd h haccept).withWaiting
        rw [hwaiting', hwaiting, List.filter_cons_of_pos (by simpa [hevents.1] using hown),
          List.filter_cons_of_pos (by simpa using hown), List.cons.injEq] at hrest
        rw [hstay, hwaiting', List.tail_cons, hrest.1]
  · have hnext := h.step (c := c) hfresh fun _ _ => hown
    have hown₀ : ¬ r₀.event.key = p.key := by rwa [hevents.1]
    split_ifs
    · apply hnext.withWaiting
      rw [hwaiting', List.tail_cons, List.filter_cons_of_neg (by simpa using hown₀)]
    · apply hnext.withWaiting
      have hown' : ¬ (processTapping c r s).2.1.event.key = p.key := by rwa [hflow.event]
      rw [hwaiting', List.tail_cons, List.filter_cons_of_neg (by simpa using hown'),
        List.filter_cons_of_neg (by simpa using hown₀)]

/-! ## An event after the decision -/

theorem filter_own {k : K} (hown : r.event.key = k) :
    [r].filter (fun r => r.event.key = k) = [r] := by
  simp [hown]

theorem filter_other {k : K} (hother : r.event.key ≠ k) :
    [r].filter (fun r => r.event.key = k) = [] := by
  simp [hother]

/-- An event without an overflow: it is accepted, or put at the end of the buffer. -/
theorem processEvent_eq {e : KeyEvent K} (hfull : ¬ Overflows c s e) :
    processEvent c s e =
      if (processTapping c (newRecord e) s).1 = true ∨ e.isEvent = false then
        (processTapping c (newRecord e) s).2.2
      else
        { (processTapping c (newRecord e) s).2.2 with
          waitingBuffer := (processTapping c (newRecord e) s).2.2.waitingBuffer ++
            [(processTapping c (newRecord e) s).2.1] } := by
  have hflow := processTapping_flow c s (fresh_newRecord e)
  have hlength := processTapping_length (c := c) (newRecord e) s (fresh_newRecord e)
  have hevent := hflow.event
  unfold Overflows at hfull
  unfold processEvent
  generalize processTapping c (newRecord e) s = res at *
  rcases res with ⟨ok, r', s'⟩
  dsimp only at *
  rw [newRecord_event] at hevent
  cases ok with
  | true => rw [if_pos rfl, if_pos (Or.inl rfl)]
  | false =>
    rw [if_neg Bool.false_ne_true, waitingBufferEnq, hevent]
    by_cases hreal : e.isEvent = true
    · have hroom : ¬ s'.waitingBuffer.length + 1 = waitingBufferSize :=
        fun h => hfull ⟨hreal, hlength ▸ h, rfl⟩
      rw [if_pos hreal, if_neg hroom, if_neg]
      rintro (h | h)
      · exact Bool.false_ne_true h
      · exact Bool.false_ne_true (h.symm.trans hreal)
    · rw [if_neg hreal, if_pos (Or.inr (Bool.eq_false_iff.mpr hreal))]

theorem eventsOf_own {k : K} {e : KeyEvent K} (hevent : e.isEvent = true) (hkey : e.key = k) :
    eventsOf k [e] = [e] := by
  simp [eventsOf, hevent, hkey]

/-- The events of a key in the buffer. -/
theorem eventsOf_waiting (k : K) (rs : List (KeyRecord K)) :
    eventsOf k (rs.map KeyRecord.event) =
      ((rs.filter fun r => r.event.key = k).map KeyRecord.event).filter KeyEvent.isEvent := by
  induction rs with
  | nil => rfl
  | cons r rs ih =>
    rw [eventsOf, List.map_cons, List.filter_cons, List.filter_cons]
    rw [eventsOf] at ih
    by_cases hkey : r.event.key = k
    · by_cases hevent : r.event.isEvent = true
      · simp [hkey, hevent, ih]
      · simp [hkey, hevent, ih]
    · simp [hkey, ih]

/-- The release of the settled key arrives, or one of its later events. -/
theorem Decided.processEvent_own {e : KeyEvent K} (h : Decided p old b es s)
    (hpressed : p.pressed = true) (hall : ∀ e ∈ es, e.isEvent = true) (hfull : ¬ Overflows c s e)
    (horder : ¬ Overtakes c s e) (hevent : e.isEvent = true) (hown : e.key = p.key)
    (halt : Alternating (p :: (es ++ [e]))) :
    Decided p old b (es ++ [e]) (processEvent c s e) := by
  have hfresh := fresh_newRecord e
  have htrace := processTapping_trace c s hfresh
  have hflow := processTapping_flow c s hfresh
  have hreal : ¬ e.isEvent = false := fun h => Bool.false_ne_true (h.symm.trans hevent)
  rw [processEvent_eq hfull]
  cases h with
  | down rp hpress hverdict hrecords hhold hes hwaiting hkey =>
    subst hes hhold
    have hrelease : e.pressed = false := by
      rw [List.nil_append, Alternating, List.isChain_pair, hpressed] at halt
      exact Bool.eq_false_iff.mpr halt.symm
    have hcount : 0 < (newRecord e).tap.count ↔ false = true :=
      iff_of_false (Nat.lt_irrefl 0) Bool.false_ne_true
    by_cases haccept : (processTapping c (newRecord e) s).1 = true
    · rw [if_pos (Or.inl haccept)]
      exact .up (released_of_waits hpress hverdict hrecords hcount hevent hrelease hown
        (fun tk htk => Or.inl (hkey tk htk)) haccept)
    · have hstay : (processTapping c (newRecord e) s).2.1 = newRecord e := by
        apply processTapping_refused _ (Bool.eq_false_iff.mpr haccept)
        intro tk htk _
        rw [newRecord_event, hown]
        exact hkey tk htk
      have hnext : Decided p old false [] (processTapping c (newRecord e) s).2.2 :=
        Decided.step (.down rp hpress hverdict hrecords rfl rfl hwaiting hkey) hfresh
          fun h => absurd h haccept
      rw [if_neg fun h => h.elim haccept hreal, hstay]
      cases hnext with
      | down rp hpress hverdict hrecords _ _ hwaiting hkey =>
        refine .waits rp (newRecord e) [] hpress hverdict hrecords hcount hrelease ?_ rfl
          fun tk htk => Or.inl (hkey tk htk)
        rw [List.filter_append, hwaiting, List.nil_append, filter_own (by exact hown)]
      | waits rp rq rs hpress hverdict hrecords hsame hrelease hwaiting hes hkey =>
        exact absurd hes (List.cons_ne_nil _ _)
      | up hreleased =>
        rcases hreleased with ⟨rp, rq, rest, -, -, -, -, hes⟩
        exact absurd hes.symm (Option.some_ne_none _)
  | waits rp rq rs hpress hverdict hrecords hsame hrelease hwaiting hes hkey =>
    have hhere : eventsOf e.key (s.waitingBuffer.map KeyRecord.event) = es := by
      rw [hown, eventsOf_waiting, hwaiting, hes, List.filter_eq_self]
      exact hall
    have hnot : ¬ (processTapping c (newRecord e) s).1 = true := by
      intro haccept
      have hnone := none_waiting horder hevent (by
        rw [hhere]
        exact (List.isChain_cons.mp halt).2) haccept
      rw [hhere, ← hes] at hnone
      exact absurd hnone (List.cons_ne_nil _ _)
    have hnext : Decided p old b es (processTapping c (newRecord e) s).2.2 :=
      Decided.step (.waits rp rq rs hpress hverdict hrecords hsame hrelease hwaiting hes hkey)
        hfresh fun h => absurd h hnot
    have hlast : (processTapping c (newRecord e) s).2.1.event = e := hflow.event
    rw [if_neg fun h => h.elim hnot hreal]
    cases hnext with
    | down rp hpress hverdict hrecords hhold hnil hwaiting hkey =>
      rw [hnil] at hes
      exact absurd hes (List.cons_ne_nil _ _)
    | waits rp rq rs hpress hverdict hrecords hsame hrelease hwaiting hes hkey =>
      refine .waits rp rq (rs ++ [(processTapping c (newRecord e) s).2.1]) hpress hverdict hrecords
        hsame hrelease ?_ ?_ hkey
      · rw [List.filter_append, hwaiting, filter_own (by rw [hlast]; exact hown), List.cons_append]
      · rw [← hes, ← List.cons_append, List.map_append, List.map_singleton, hlast]
    | up hreleased =>
      rcases hreleased with ⟨rp, rq, rest, hpress, hverdict, hrecords, hsame, hes⟩
      refine .up ⟨rp, rq, rest, hpress, hverdict, hrecords, hsame, ?_⟩
      rw [List.head?_append, hes]
      rfl
  | up hreleased =>
    rcases hreleased.more (htrace.recordsOf_append p.key) with
      ⟨rp, rq, rest, hpress, hverdict, hrecords, hsame, hes⟩
    have hes' : (es ++ [e]).head? = some rq.event := by
      rw [List.head?_append, hes]
      rfl
    split_ifs
    · exact .up ⟨rp, rq, rest, hpress, hverdict, hrecords, hsame, hes'⟩
    · exact .up ⟨rp, rq, rest, hpress, hverdict, hrecords, hsame, hes'⟩

/-- An event of another key, or a tick. -/
theorem Decided.processEvent_other {e : KeyEvent K} (h : Decided p old b es s)
    (hfull : ¬ Overflows c s e) (hother : e.isEvent = true → e.key ≠ p.key) :
    Decided p old b es (processEvent c s e) := by
  have hflow := processTapping_flow c s (fresh_newRecord e)
  have hnext := h.step (c := c) (fresh_newRecord e) fun _ => hother
  rw [processEvent_eq hfull]
  split_ifs with hcase
  · exact hnext
  · apply hnext.withWaiting
    have hevent : e.isEvent = true := Bool.of_not_eq_false fun h => hcase (Or.inr h)
    have hkey : ¬ (processTapping c (newRecord e) s).2.1.event.key = p.key := by
      rw [hflow.event]
      exact hother hevent
    rw [List.filter_append, filter_other hkey, List.append_nil]

end Decided

end Tapping
end VialQmk
