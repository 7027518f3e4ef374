import VialQmk.Tapping.ProcessTapping

/-!
# Tapping - what one record does

Events are where they are: processed, held as the tapping key, or waiting.  One step
moves the event at hand to the processed or held ones, or refuses it, and never touches
the order of the others.

Main results:

- Structure {lit}`Flow`: what {lit}`processTapping` does to the events.
- Theorem {lit}`processTapping_flow`: for every state and every record.
- Theorem {lit}`processTapping_trace`: where the records in the calls come from.
- Theorem {lit}`drain_all`: the drain keeps the events of each key in order.
-/

namespace VialQmk
namespace Tapping

variable {K : Type}

/-- The event of a call, unless it is made up. -/
def Call.event : Call K → Option (KeyEvent K)
  | record r => some r.event
  | madeUp _ => none

/-- The events that {lit}`process_record` was called for. -/
def State.processed (s : State K) : List (KeyEvent K) :=
  s.calls.filterMap Call.event

/-- The tapping key is pressed, and it is not settled whether it is a tap. -/
def KeyRecord.Undecided (tk : KeyRecord K) : Prop :=
  tk.event.pressed = true ∧ tk.tap.count = 0

instance (tk : KeyRecord K) : Decidable tk.Undecided :=
  inferInstanceAs (Decidable (_ ∧ _))

/-- The event that is kept back in the tapping key. -/
def State.held (s : State K) : List (KeyEvent K) :=
  match s.tappingKey with
  | some tk => if tk.Undecided then [tk.event] else []
  | none => []

/-- The processed events, and the one kept back. -/
def State.settled (s : State K) : List (KeyEvent K) :=
  s.processed ++ s.held

/-- A press that has not been taken for a tap yet. -/
def KeyRecord.Fresh (r : KeyRecord K) : Prop :=
  r.event.pressed = true → r.tap.count = 0

theorem fresh_newRecord (e : KeyEvent K) : (newRecord e).Fresh :=
  fun _ => rfl

/-! ## Small steps -/

@[simp]
theorem newRecord_event (e : KeyEvent K) : (newRecord e).event = e :=
  rfl

@[simp]
theorem setCount_event (r : KeyRecord K) (count : ℕ) : (r.setCount count).event = r.event :=
  rfl

@[simp]
theorem setCount_count (r : KeyRecord K) (count : ℕ) : (r.setCount count).tap.count = count :=
  rfl

@[simp]
theorem setInterrupted_event (r : KeyRecord K) : r.setInterrupted.event = r.event :=
  rfl

@[simp]
theorem setInterrupted_count (r : KeyRecord K) : r.setInterrupted.tap.count = r.tap.count :=
  rfl

@[simp]
theorem processRecord_tappingKey (s : State K) (r : KeyRecord K) :
    (s.processRecord r).tappingKey = s.tappingKey :=
  rfl

@[simp]
theorem processRecord_waitingBuffer (s : State K) (r : KeyRecord K) :
    (s.processRecord r).waitingBuffer = s.waitingBuffer :=
  rfl

@[simp]
theorem setTappingKey_tappingKey (s : State K) (tk : Option (KeyRecord K)) :
    (s.setTappingKey tk).tappingKey = tk :=
  rfl

@[simp]
theorem setTappingKey_waitingBuffer (s : State K) (tk : Option (KeyRecord K)) :
    (s.setTappingKey tk).waitingBuffer = s.waitingBuffer :=
  rfl

@[simp]
theorem processed_processRecord (s : State K) (r : KeyRecord K) :
    (s.processRecord r).processed = s.processed ++ [r.event] := by
  simp [State.processed, State.processRecord, Call.event]

@[simp]
theorem processed_setTappingKey (s : State K) (tk : Option (KeyRecord K)) :
    (s.setTappingKey tk).processed = s.processed :=
  rfl

theorem held_none {s : State K} (h : s.tappingKey = none) : s.held = [] := by
  rw [State.held, h]

theorem held_some {s : State K} {tk : KeyRecord K} (h : s.tappingKey = some tk) :
    s.held = if tk.Undecided then [tk.event] else [] := by
  rw [State.held, h]

/-- Nothing is kept back when the tapping key is settled or released. -/
theorem held_settled {s : State K} {tk : KeyRecord K} (h : s.tappingKey = some tk)
    (htk : ¬ tk.Undecided) : s.held = [] := by
  rw [held_some h, if_neg htk]

theorem settled_none {s : State K} (h : s.tappingKey = none) : s.settled = s.processed := by
  rw [State.settled, held_none h, List.append_nil]

theorem settled_settled {s : State K} {tk : KeyRecord K} (h : s.tappingKey = some tk)
    (htk : ¬ tk.Undecided) : s.settled = s.processed := by
  rw [State.settled, held_settled h htk, List.append_nil]

theorem settled_undecided {s : State K} {tk : KeyRecord K} (h : s.tappingKey = some tk)
    (htk : tk.Undecided) : s.settled = s.processed ++ [tk.event] := by
  rw [State.settled, held_some h, if_pos htk]

/-- With nothing kept back, a processed event is the last settled one. -/
theorem settled_processRecord {s : State K} (r : KeyRecord K) (h : s.held = []) :
    (s.processRecord r).settled = s.settled ++ [r.event] := by
  have hafter : (s.processRecord r).held = [] := h
  rw [State.settled, hafter, processed_processRecord, State.settled, h, List.append_nil,
    List.append_nil]

/-- The tapping key is settled as a hold. -/
theorem settled_hold {s : State K} {tk tk' : KeyRecord K} (htk : s.tappingKey = some tk)
    (hundecided : tk.Undecided) (hevent : tk'.event = tk.event) :
    ((s.processRecord tk').setTappingKey none).settled = s.settled := by
  rw [settled_none rfl, processed_setTappingKey, processed_processRecord, hevent,
    settled_undecided htk hundecided]

/-- It is settled as a tap. -/
theorem settled_tap {s : State K} {tk : KeyRecord K} (htk : s.tappingKey = some tk)
    (hundecided : tk.Undecided) :
    ((s.setTappingKey (some (tk.setCount 1))).processRecord (tk.setCount 1)).settled =
      s.settled := by
  have hsettled : ¬ (tk.setCount 1).Undecided := fun h => Nat.one_ne_zero h.2
  rw [settled_settled (processRecord_tappingKey _ _) hsettled, processed_processRecord,
    processed_setTappingKey, setCount_event, settled_undecided htk hundecided]

variable [DecidableEq K]

/-- The events of one key. -/
def eventsOf (k : K) (es : List (KeyEvent K)) : List (KeyEvent K) :=
  es.filter fun e => e.isEvent && e.key = k

@[simp]
theorem eventsOf_append (k : K) (es es' : List (KeyEvent K)) :
    eventsOf k (es ++ es') = eventsOf k es ++ eventsOf k es' :=
  List.filter_append ..

theorem eventsOf_other {k : K} {e : KeyEvent K} (h : e.isEvent = true → e.key ≠ k) :
    eventsOf k [e] = [] := by
  simpa [eventsOf] using h

/-! ## Scanning the buffer -/

section Scan

variable {c : Config K} {tk : KeyRecord K}

/-- Marking a tap changes no event. -/
theorem markCandidate_event {rs rs' : List (KeyRecord K)} (h : markCandidate c tk rs = some rs') :
    rs'.map KeyRecord.event = rs.map KeyRecord.event := by
  induction rs generalizing rs' with
  | nil => exact absurd h (by simp [markCandidate])
  | cons r rs ih =>
    rw [markCandidate] at h
    split_ifs at h with hr
    · rw [← Option.some.inj h]
      rfl
    · rw [Option.map_eq_some_iff] at h
      rcases h with ⟨rs'', hrs, rfl⟩
      rw [List.map_cons, ih hrs, List.map_cons]

/-- It marks a release. -/
theorem markCandidate_fresh {rs rs' : List (KeyRecord K)} (h : markCandidate c tk rs = some rs')
    (hfresh : ∀ r ∈ rs, r.Fresh) : ∀ r ∈ rs', r.Fresh := by
  induction rs generalizing rs' with
  | nil => exact absurd h (by simp [markCandidate])
  | cons r rs ih =>
    rw [List.forall_mem_cons] at hfresh
    rw [markCandidate] at h
    split_ifs at h with hr
    · rw [← Option.some.inj h, List.forall_mem_cons]
      refine ⟨fun hpressed => ?_, hfresh.2⟩
      simp only [isCandidate, Bool.and_eq_true, Bool.not_eq_true'] at hr
      exact absurd (hr.1.2.symm.trans hpressed) Bool.false_ne_true
    · rw [Option.map_eq_some_iff] at h
      rcases h with ⟨rs'', hrs, rfl⟩
      rw [List.forall_mem_cons]
      exact ⟨hfresh.1, ih hrs hfresh.2⟩

/-- A new tapping key is kept back, or the scan finds that it is a tap. -/
theorem scan_cases {keyp : KeyRecord K} (s : State K) (hkey : keyp.Undecided) :
    waitingBufferScanTap c keyp (s.setTappingKey (some keyp)) = s.setTappingKey (some keyp) ∨
      ∃ waiting, markCandidate c keyp s.waitingBuffer = some waiting ∧
        waitingBufferScanTap c keyp (s.setTappingKey (some keyp)) =
          ({ s with tappingKey := some (keyp.setCount 1), waitingBuffer := waiting } :
            State K).processRecord (keyp.setCount 1) := by
  have hopen : ¬ (0 < keyp.tap.count ∨ keyp.event.pressed = false) := by
    rintro (hcount | hpressed)
    · exact absurd hkey.2 (Nat.ne_of_gt hcount)
    · exact absurd (hpressed.symm.trans hkey.1) Bool.false_ne_true
  rw [waitingBufferScanTap, if_neg hopen, setTappingKey_waitingBuffer]
  cases markCandidate c keyp s.waitingBuffer with
  | none => exact Or.inl rfl
  | some waiting => exact Or.inr ⟨waiting, rfl, rfl⟩

end Scan

/-! ## One record -/

/-- What a step does to the events.  The result says whether the record was accepted. -/
structure Flow (s : State K) (r : KeyRecord K) (res : Bool × KeyRecord K × State K) : Prop where
  /-- the record keeps its event -/
  event : res.2.1.event = r.event
  /-- and the tap count of a press, if it stays -/
  fresh : res.1 = false → r.Fresh → res.2.1.Fresh
  waiting : res.2.2.waitingBuffer.map KeyRecord.event = s.waitingBuffer.map KeyRecord.event
  waiting_fresh : (∀ r ∈ s.waitingBuffer, r.Fresh) → ∀ r ∈ res.2.2.waitingBuffer, r.Fresh
  /-- an accepted event joins the processed or held ones -/
  settled : ∀ k, eventsOf k res.2.2.settled =
    eventsOf k (s.settled ++ if res.1 then [r.event] else [])

/-- The event at hand is processed or held. -/
theorem Flow.accept {s s' : State K} {r r' : KeyRecord K} (hevent : r'.event = r.event)
    (hwaiting : s'.waitingBuffer = s.waitingBuffer)
    (hsettled : s'.settled = s.settled ++ [r.event]) : Flow s r (true, r', s') where
  event := hevent
  fresh := nofun
  waiting := by rw [hwaiting]
  waiting_fresh h := by
    rw [hwaiting]
    exact h
  settled k := by
    rw [hsettled]
    rfl

/-- The event at hand is refused. -/
theorem Flow.refuse {s s' : State K} {r r' : KeyRecord K} (hevent : r'.event = r.event)
    (hfresh : r.Fresh → r'.Fresh) (hwaiting : s'.waitingBuffer = s.waitingBuffer)
    (hsettled : s'.settled = s.settled) : Flow s r (false, r', s') where
  event := hevent
  fresh _ := hfresh
  waiting := by rw [hwaiting]
  waiting_fresh h := by
    rw [hwaiting]
    exact h
  settled k := by
    rw [hsettled]
    simp

/-- A tick that is accepted and changes nothing. -/
theorem Flow.tick {s : State K} {r : KeyRecord K} (h : ¬ r.event.isEvent = true) :
    Flow s r (true, r, s) where
  event := rfl
  fresh := nofun
  waiting := rfl
  waiting_fresh := id
  settled k := by
    rw [if_pos rfl, eventsOf_append, eventsOf_other fun hevent => absurd hevent h,
      List.append_nil]

/-- A press that starts a tapping. -/
theorem Flow.scan {c : Config K} {s s' : State K} {keyp : KeyRecord K} (hkey : keyp.Undecided)
    (hwaiting : s'.waitingBuffer = s.waitingBuffer) (hprocessed : s'.processed = s.settled) :
    Flow s keyp (true, keyp, waitingBufferScanTap c keyp (s'.setTappingKey (some keyp))) := by
  rcases scan_cases (c := c) s' hkey with hscan | ⟨waiting, hmark, hscan⟩
  · apply Flow.accept rfl
    · rw [hscan, setTappingKey_waitingBuffer, hwaiting]
    · rw [hscan, settled_undecided rfl hkey, processed_setTappingKey, hprocessed]
  · rw [hwaiting] at hmark
    have hsettled : ¬ (keyp.setCount 1).Undecided := fun h => Nat.one_ne_zero h.2
    rw [hscan]
    constructor
    · rfl
    · nofun
    · exact markCandidate_event hmark
    · exact markCandidate_fresh hmark
    · intro k
      rw [settled_settled (processRecord_tappingKey _ _) hsettled, processed_processRecord,
        setCount_event, if_pos rfl, ← hprocessed]
      rfl

section Cases

variable {c : Config K} {s : State K} {tk keyp : KeyRecord K}

theorem processReset_flow (hnone : s.tappingKey = none) (hfresh : keyp.Fresh) :
    Flow s keyp (processReset c keyp s) := by
  unfold processReset
  by_cases hevent : keyp.event.isEvent = true
  · rw [if_pos hevent]
    by_cases hstart : keyp.event.pressed = true ∧ c.isTapRecord keyp.event.key = true
    · rw [if_pos hstart]
      exact Flow.scan ⟨hstart.1, hfresh hstart.1⟩ rfl (settled_none hnone).symm
    · rw [if_neg hstart]
      exact Flow.accept rfl rfl (settled_processRecord keyp (held_none hnone))
  · rw [if_neg hevent]
    exact Flow.tick hevent

theorem processUndecided_flow (htk : s.tappingKey = some tk) (hundecided : tk.Undecided) :
    Flow s keyp (processUndecided c tk keyp s) := by
  unfold processUndecided
  dsimp only
  by_cases hown : keyp.event.key = tk.event.key ∧ keyp.event.pressed = false
  · rw [if_pos hown]
    refine Flow.refuse rfl ?_ rfl (settled_tap htk hundecided)
    exact fun _ hpressed => absurd (hown.2.symm.trans hpressed) Bool.false_ne_true
  rw [if_neg hown]
  by_cases htyped : keyp.event.pressed = false ∧ waitingBufferTyped s keyp.event = true ∧
      c.permissiveHold tk.event.key = true
  · rw [if_pos htyped]
    exact Flow.refuse rfl id rfl (settled_hold htk hundecided rfl)
  rw [if_neg htyped]
  by_cases hbefore : keyp.event.pressed = false ∧ waitingBufferTyped s keyp.event = false
  · rw [if_pos hbefore]
    split_ifs
    · exact Flow.refuse rfl id rfl rfl
    · -- the event overtakes the tapping key, which is another key
      constructor
      · rfl
      · nofun
      · rfl
      · exact id
      · intro k
        have hother : keyp.event.key ≠ tk.event.key := fun h => hown ⟨h, hbefore.1⟩
        have hafter : (s.processRecord keyp).settled =
            s.processed ++ [keyp.event] ++ [tk.event] := by
          rw [settled_undecided (s := s.processRecord keyp) htk hundecided,
            processed_processRecord]
        rw [hafter, settled_undecided htk hundecided, if_pos rfl]
        simp only [eventsOf_append, List.append_assoc]
        by_cases hk : tk.event.key = k
        · have hnone : eventsOf k [keyp.event] = [] :=
            eventsOf_other fun _ h => hother (h.trans hk.symm)
          rw [hnone, List.append_nil, List.nil_append]
        · have hnone : eventsOf k [tk.event] = [] := eventsOf_other fun _ h => hk h
          rw [hnone, List.append_nil, List.nil_append]
  rw [if_neg hbefore]
  by_cases hpressed : keyp.event.pressed = true
  · rw [if_pos hpressed]
    split_ifs
    · exact Flow.refuse rfl id rfl (settled_hold htk hundecided rfl)
    · refine Flow.refuse rfl id rfl ?_
      have hinterrupted : tk.setInterrupted.Undecided := hundecided
      rw [settled_undecided rfl hinterrupted, settled_undecided htk hundecided]
      rfl
  · rw [if_neg hpressed]
    exact Flow.refuse rfl id rfl rfl

/-- A new tap while the last one is down. -/
theorem startNewTap_flow (htk : s.tappingKey = some tk) (hsettled : ¬ tk.Undecided)
    (hpressed : keyp.event.pressed = true) (hfresh : keyp.Fresh) :
    Flow s keyp (true, keyp, startNewTap c tk keyp s) := by
  unfold startNewTap
  dsimp only
  apply Flow.scan ⟨hpressed, hfresh hpressed⟩
  · split_ifs <;> rfl
  · rw [settled_settled htk hsettled]
    split_ifs
    · simp [State.processed, Call.event]
    · rfl

theorem processTapped_flow (htk : s.tappingKey = some tk) (hsettled : ¬ tk.Undecided)
    (hfresh : keyp.Fresh) : Flow s keyp (processTapped c tk keyp s) := by
  unfold processTapped
  dsimp only
  by_cases hown : keyp.event.key = tk.event.key ∧ keyp.event.pressed = false
  · rw [if_pos hown]
    refine Flow.accept rfl rfl ?_
    rw [settled_settled htk hsettled]
    split_ifs
    · have hreleased : ¬ ({ keyp with tap := tk.tap } : KeyRecord K).Undecided :=
        fun h => absurd (hown.2.symm.trans h.1) Bool.false_ne_true
      rw [settled_settled rfl hreleased, processed_setTappingKey, processed_processRecord]
    · rw [settled_none rfl, processed_setTappingKey, processed_processRecord]
  rw [if_neg hown]
  by_cases hstart : c.isTapRecord keyp.event.key = true ∧ keyp.event.pressed = true
  · rw [if_pos hstart]
    exact startNewTap_flow htk hsettled hstart.2 hfresh
  · rw [if_neg hstart]
    exact Flow.accept rfl rfl (settled_processRecord keyp (held_settled htk hsettled))

theorem processPressed_flow (htk : s.tappingKey = some tk) (hpressed : tk.event.pressed = true)
    (hfresh : keyp.Fresh) : Flow s keyp (processPressed c tk keyp s) := by
  unfold processPressed
  by_cases hcount : tk.tap.count = 0
  · rw [if_pos hcount]
    split_ifs with hwithin hevent
    · exact processUndecided_flow htk ⟨hpressed, hcount⟩
    · exact Flow.tick hevent
    · exact Flow.refuse rfl id rfl (settled_hold htk ⟨hpressed, hcount⟩ rfl)
  · rw [if_neg hcount]
    split_ifs with hevent
    · exact processTapped_flow htk (fun h => hcount h.2) hfresh
    · exact Flow.tick hevent

theorem processReleasedPress_flow (htk : s.tappingKey = some tk)
    (hreleased : tk.event.pressed = false) (hpressed : keyp.event.pressed = true)
    (hfresh : keyp.Fresh) : Flow s keyp (processReleasedPress c tk keyp s) := by
  have hsettled : ¬ tk.Undecided :=
    fun h => absurd (hreleased.symm.trans h.1) Bool.false_ne_true
  unfold processReleasedPress
  dsimp only
  by_cases hown : keyp.event.key = tk.event.key
  · rw [if_pos hown]
    by_cases hquick : withinQuickTapTerm c tk keyp.event = true ∧ tk.tap.interrupted = false ∧
        0 < tk.tap.count
    · rw [if_pos hquick]
      split_ifs
      · have htap : ¬ (({ keyp with tap := tk.tap } : KeyRecord K).setCount
            (tk.tap.count + 1)).Undecided := fun h => Nat.succ_ne_zero _ h.2
        refine Flow.accept rfl rfl ?_
        rw [settled_settled rfl htap, settled_settled htk hsettled, processed_setTappingKey,
          processed_processRecord]
        rfl
      · have htap : ¬ ({ keyp with tap := tk.tap } : KeyRecord K).Undecided :=
          fun h => absurd h.2 (Nat.ne_of_gt hquick.2.2)
        refine Flow.accept rfl rfl ?_
        rw [settled_settled rfl htap, settled_settled htk hsettled, processed_setTappingKey,
          processed_processRecord]
    · rw [if_neg hquick]
      refine Flow.accept rfl rfl ?_
      rw [settled_undecided rfl ⟨hpressed, hfresh hpressed⟩, settled_settled htk hsettled,
        processed_setTappingKey]
  · rw [if_neg hown]
    split_ifs
    · exact Flow.scan ⟨hpressed, hfresh hpressed⟩ rfl (settled_settled htk hsettled).symm
    · have hsettled' : ¬ tk.setInterrupted.Undecided := hsettled
      refine Flow.accept rfl rfl ?_
      rw [settled_settled rfl hsettled', settled_settled htk hsettled, processed_processRecord,
        processed_setTappingKey]

theorem processReleased_flow (htk : s.tappingKey = some tk) (hreleased : tk.event.pressed = false)
    (hfresh : keyp.Fresh) : Flow s keyp (processReleased c tk keyp s) := by
  have hsettled : ¬ tk.Undecided :=
    fun h => absurd (hreleased.symm.trans h.1) Bool.false_ne_true
  unfold processReleased
  split_ifs with hwithin hevent hpressed
  · exact processReleasedPress_flow htk hreleased hpressed hfresh
  · exact Flow.accept rfl rfl (settled_processRecord keyp (held_settled htk hsettled))
  · exact Flow.tick hevent
  · refine Flow.refuse rfl id rfl ?_
    rw [settled_none rfl, settled_settled htk hsettled, processed_setTappingKey]

/-- What one record does to the events. -/
theorem processTapping_flow (c : Config K) (s : State K) (hfresh : keyp.Fresh) :
    Flow s keyp (processTapping c keyp s) := by
  unfold processTapping
  cases htk : s.tappingKey with
  | none => exact processReset_flow htk hfresh
  | some tk =>
    dsimp only
    split_ifs with hpressed
    · exact processPressed_flow htk hpressed hfresh
    · exact processReleased_flow htk (Bool.eq_false_iff.mpr hpressed) hfresh

end Cases

/-! ## Traces

Where the records in the calls and in the tapping key come from, and which records of the
buffer stay as they are. -/

/-- What a step leaves behind: a call or a new tapping key is the record at hand, if it was
accepted, or the old tapping key, which is processed only while it is not settled. -/
structure Trace (s : State K) (r : KeyRecord K) (res : Bool × KeyRecord K × State K) : Prop where
  calls : ∃ cs, res.2.2.calls = s.calls ++ cs ∧ ∀ x, Call.record x ∈ cs →
    (res.1 = true ∧ x.event = r.event) ∨
      ∃ tk, s.tappingKey = some tk ∧ tk.Undecided ∧ x.event = tk.event
  tappingKey : ∀ tk', res.2.2.tappingKey = some tk' → (res.1 = true ∧ tk'.event = r.event) ∨
    ∃ tk, s.tappingKey = some tk ∧ tk'.event = tk.event ∧
      (¬ tk.Undecided → tk'.tap.count = tk.tap.count)
  waiting : ∀ k, (res.1 = true → r.event.key ≠ k) →
    res.2.2.waitingBuffer.filter (fun x => x.event.key = k) =
      s.waitingBuffer.filter fun x => x.event.key = k

section Traces

variable {c : Config K} {s : State K} {tk keyp : KeyRecord K}

/-- A step that changes nothing. -/
theorem Trace.same {ok : Bool} (keyp' : KeyRecord K) : Trace s keyp (ok, keyp', s) where
  calls := ⟨[], (List.append_nil _).symm, fun _ h => absurd h List.not_mem_nil⟩
  tappingKey tk' h := Or.inr ⟨tk', h, rfl, fun _ => rfl⟩
  waiting _ _ := rfl

/-- The record at hand is processed, and the tapping key stays or is a copy of it. -/
theorem Trace.process {keyp' : KeyRecord K} {s' : State K} (hevent : keyp'.event = keyp.event)
    (hcalls : s'.calls = s.calls ++ [.record keyp'])
    (hwaiting : s'.waitingBuffer = s.waitingBuffer)
    (hkey : ∀ tk', s'.tappingKey = some tk' → tk' = keyp' ∨
      ∃ tk, s.tappingKey = some tk ∧ tk'.event = tk.event ∧ tk'.tap.count = tk.tap.count) :
    Trace s keyp (true, keyp', s') where
  calls := by
    refine ⟨[.record keyp'], hcalls, fun x hx => Or.inl ⟨rfl, ?_⟩⟩
    rw [List.mem_singleton, Call.record.injEq] at hx
    rw [hx, hevent]
  tappingKey tk' h := by
    rcases hkey tk' h with rfl | ⟨tk, htk, hsame, hcount⟩
    · exact Or.inl ⟨rfl, hevent⟩
    · exact Or.inr ⟨tk, htk, hsame, fun _ => hcount⟩
  waiting k _ := by rw [hwaiting]

/-- The tapping key is processed, and it stays or the machine is reset. -/
theorem Trace.settle {ok : Bool} {keyp' tk' : KeyRecord K} {s' : State K}
    (htk : s.tappingKey = some tk) (hundecided : tk.Undecided) (hevent : tk'.event = tk.event)
    (hcalls : s'.calls = s.calls ++ [.record tk'])
    (hwaiting : s'.waitingBuffer = s.waitingBuffer)
    (hkey : s'.tappingKey = none ∨ s'.tappingKey = some tk') :
    Trace s keyp (ok, keyp', s') where
  calls := by
    refine ⟨[.record tk'], hcalls, fun x hx => Or.inr ⟨tk, htk, hundecided, ?_⟩⟩
    rw [List.mem_singleton, Call.record.injEq] at hx
    rw [hx, hevent]
  tappingKey tk'' h := by
    rcases hkey with hnone | hsome
    · exact absurd (h.symm.trans hnone) (Option.some_ne_none tk'')
    · rw [← Option.some.inj (hsome.symm.trans h)]
      exact Or.inr ⟨tk, htk, hevent, fun hsettled => absurd hundecided hsettled⟩
  waiting k _ := by rw [hwaiting]

/-- Marking a tap changes records of one key only. -/
theorem markCandidate_filter {rs rs' : List (KeyRecord K)}
    (h : markCandidate c tk rs = some rs') {k : K} (hk : tk.event.key ≠ k) :
    rs'.filter (fun x => x.event.key = k) = rs.filter fun x => x.event.key = k := by
  induction rs generalizing rs' with
  | nil => exact absurd h (by simp [markCandidate])
  | cons r rs ih =>
    rw [markCandidate] at h
    split_ifs at h with hr
    · rw [← Option.some.inj h]
      simp only [isCandidate, Bool.and_eq_true, decide_eq_true_eq] at hr
      have hother : ¬ r.event.key = k := fun heq => hk (hr.1.1.2.symm.trans heq)
      simp [hother]
    · rw [Option.map_eq_some_iff] at h
      rcases h with ⟨rs'', hrs, rfl⟩
      rw [List.filter_cons, List.filter_cons, ih hrs]

/-- The record at hand becomes the tapping key. -/
theorem Trace.scan {s' : State K} (hkey : keyp.Undecided) {cs : List (Call K)}
    (hcalls : s'.calls = s.calls ++ cs) (hmadeUp : ∀ x, Call.record x ∉ cs)
    (hwaiting : s'.waitingBuffer = s.waitingBuffer) :
    Trace s keyp (true, keyp, waitingBufferScanTap c keyp (s'.setTappingKey (some keyp))) := by
  rcases scan_cases (c := c) s' hkey with hscan | ⟨waiting, hmark, hscan⟩
  · rw [hscan]
    constructor
    · exact ⟨cs, hcalls, fun x hx => absurd hx (hmadeUp x)⟩
    · intro tk' h
      rw [← Option.some.inj h]
      exact Or.inl ⟨rfl, rfl⟩
    · intro k _
      rw [← hwaiting]
      rfl
  · rw [hscan]
    constructor
    · refine ⟨cs ++ [.record (keyp.setCount 1)], ?_, fun x hx => Or.inl ⟨rfl, ?_⟩⟩
      · rw [← List.append_assoc, ← hcalls]
        rfl
      · rw [List.mem_append, List.mem_singleton, Call.record.injEq] at hx
        rcases hx with hx | rfl
        · exact absurd hx (hmadeUp x)
        · rfl
    · intro tk' h
      rw [← Option.some.inj h]
      exact Or.inl ⟨rfl, rfl⟩
    · intro k hk
      rw [hwaiting] at hmark
      exact markCandidate_filter hmark (hk rfl)

theorem processReset_trace (hfresh : keyp.Fresh) : Trace s keyp (processReset c keyp s) := by
  unfold processReset
  by_cases hevent : keyp.event.isEvent = true
  · rw [if_pos hevent]
    by_cases hstart : keyp.event.pressed = true ∧ c.isTapRecord keyp.event.key = true
    · rw [if_pos hstart]
      exact Trace.scan ⟨hstart.1, hfresh hstart.1⟩ (List.append_nil _).symm
        (fun _ h => absurd h List.not_mem_nil) rfl
    · rw [if_neg hstart]
      exact Trace.process rfl rfl rfl fun tk' h => Or.inr ⟨tk', h, rfl, rfl⟩
  · rw [if_neg hevent]
    exact Trace.same keyp

theorem processUndecided_trace (htk : s.tappingKey = some tk) (hundecided : tk.Undecided) :
    Trace s keyp (processUndecided c tk keyp s) := by
  unfold processUndecided
  dsimp only
  split_ifs
  · exact Trace.settle htk hundecided (setCount_event tk 1) rfl rfl (Or.inr rfl)
  · exact Trace.settle htk hundecided rfl rfl rfl (Or.inl rfl)
  · exact Trace.same keyp
  · exact Trace.process rfl rfl rfl fun tk' h => Or.inr ⟨tk', h, rfl, rfl⟩
  · exact Trace.settle htk hundecided (setInterrupted_event tk) rfl rfl (Or.inl rfl)
  · constructor
    · exact ⟨[], (List.append_nil _).symm, fun _ h => absurd h List.not_mem_nil⟩
    · intro tk' h
      rw [← Option.some.inj h]
      exact Or.inr ⟨tk, htk, rfl, fun _ => rfl⟩
    · exact fun _ _ => rfl
  · exact Trace.same keyp

theorem processTapped_trace (hfresh : keyp.Fresh) :
    Trace s keyp (processTapped c tk keyp s) := by
  unfold processTapped
  dsimp only
  by_cases hown : keyp.event.key = tk.event.key ∧ keyp.event.pressed = false
  · rw [if_pos hown]
    refine Trace.process rfl rfl rfl fun tk' h => Or.inl ?_
    rw [setTappingKey_tappingKey] at h
    split_ifs at h
    exact (Option.some.inj h).symm
  rw [if_neg hown]
  by_cases hstart : c.isTapRecord keyp.event.key = true ∧ keyp.event.pressed = true
  · rw [if_pos hstart]
    unfold startNewTap
    dsimp only
    split_ifs
    · exact Trace.scan ⟨hstart.2, hfresh hstart.2⟩ rfl (by simp) rfl
    · exact Trace.scan ⟨hstart.2, hfresh hstart.2⟩ (List.append_nil _).symm
        (fun _ h => absurd h List.not_mem_nil) rfl
  · rw [if_neg hstart]
    exact Trace.process rfl rfl rfl fun tk' h => Or.inr ⟨tk', h, rfl, rfl⟩

theorem processReleasedPress_trace (htk : s.tappingKey = some tk)
    (hpressed : keyp.event.pressed = true) (hfresh : keyp.Fresh) :
    Trace s keyp (processReleasedPress c tk keyp s) := by
  unfold processReleasedPress
  dsimp only
  split_ifs
  · exact Trace.process rfl rfl rfl fun tk' h => Or.inl (Option.some.inj h).symm
  · exact Trace.process rfl rfl rfl fun tk' h => Or.inl (Option.some.inj h).symm
  · constructor
    · exact ⟨[], (List.append_nil _).symm, fun _ h => absurd h List.not_mem_nil⟩
    · intro tk' h
      rw [← Option.some.inj h]
      exact Or.inl ⟨rfl, rfl⟩
    · exact fun _ _ => rfl
  · exact Trace.scan ⟨hpressed, hfresh hpressed⟩ (List.append_nil _).symm
      (fun _ h => absurd h List.not_mem_nil) rfl
  · refine Trace.process rfl rfl rfl fun tk' h => Or.inr ⟨tk, htk, ?_⟩
    rw [← Option.some.inj h]
    exact ⟨rfl, rfl⟩

/-- Where the records come from after a step. -/
theorem processTapping_trace (c : Config K) (s : State K) (hfresh : keyp.Fresh) :
    Trace s keyp (processTapping c keyp s) := by
  unfold processTapping
  cases htk : s.tappingKey with
  | none => exact processReset_trace hfresh
  | some tk =>
    dsimp only
    by_cases hpressed : tk.event.pressed = true
    · rw [if_pos hpressed]
      unfold processPressed
      by_cases hcount : tk.tap.count = 0
      · rw [if_pos hcount]
        split_ifs
        · exact processUndecided_trace htk ⟨hpressed, hcount⟩
        · exact Trace.same keyp
        · exact Trace.settle htk ⟨hpressed, hcount⟩ rfl rfl rfl (Or.inl rfl)
      · rw [if_neg hcount]
        split_ifs
        · exact processTapped_trace hfresh
        · exact Trace.same keyp
    · rw [if_neg hpressed]
      unfold processReleased
      split_ifs with hwithin hevent hpress
      · exact processReleasedPress_trace htk hpress hfresh
      · exact Trace.process rfl rfl rfl fun tk' h => Or.inr ⟨tk', h, rfl, rfl⟩
      · exact Trace.same keyp
      · constructor
        · exact ⟨[], (List.append_nil _).symm, fun _ h => absurd h List.not_mem_nil⟩
        · exact fun tk' h => absurd h.symm (Option.some_ne_none tk')
        · exact fun _ _ => rfl

end Traces

/-! ## The drain -/

/-- What each round of the drain keeps, the drain keeps. -/
theorem drain_invariant {c : Config K} (P : State K → Prop)
    (hround : ∀ s r rs, s.waitingBuffer = r :: rs → P s → P (drainRound c r s).2) (n : ℕ)
    {s : State K} (h : P s) : P (drain c n s) := by
  induction n generalizing s with
  | zero => exact h
  | succ n ih =>
    rw [drain]
    split
    · exact h
    · have hnext := hround s _ _ ‹_› h
      dsimp only
      split_ifs
      · exact ih hnext
      · exact hnext

/-- All events that have come, wherever they are. -/
def State.all (s : State K) : List (KeyEvent K) :=
  s.settled ++ s.waitingBuffer.map KeyRecord.event

/-- The presses that wait have not been taken for taps. -/
def State.Fresh (s : State K) : Prop :=
  ∀ r ∈ s.waitingBuffer, r.Fresh

/-- A round of the drain keeps the events of each key in order. -/
theorem drainRound_all {c : Config K} {s : State K} {r : KeyRecord K} {rs : List (KeyRecord K)}
    (hwaiting : s.waitingBuffer = r :: rs) (hfresh : s.Fresh) :
    (drainRound c r s).2.Fresh ∧
      ∀ k, eventsOf k (drainRound c r s).2.all = eventsOf k s.all := by
  have hr : r.Fresh := hfresh r (hwaiting ▸ List.mem_cons_self)
  have hflow := processTapping_flow c s hr
  have hevents := hflow.waiting
  have hkeep := hflow.waiting_fresh hfresh
  have hsettled := hflow.settled
  unfold drainRound
  generalize processTapping c r s = res at *
  rcases res with ⟨ok, r', s'⟩
  dsimp only at *
  cases hwaiting' : s'.waitingBuffer with
  | nil =>
    rw [hwaiting, hwaiting'] at hevents
    exact absurd hevents (List.cons_ne_nil _ _).symm
  | cons r₀ rs' =>
    rw [hwaiting, hwaiting', List.map_cons, List.map_cons, List.cons.injEq] at hevents
    rw [hwaiting'] at hkeep
    rw [List.forall_mem_cons] at hkeep
    cases ok with
    | true =>
      refine ⟨hkeep.2, fun k => ?_⟩
      have hhere : ({ s' with waitingBuffer := rs' } : State K).settled = s'.settled := rfl
      simp only [State.all, List.tail_cons, if_true, hhere, hwaiting, eventsOf_append,
        List.map_cons, hevents.2]
      rw [hsettled k, if_pos rfl, eventsOf_append, List.append_assoc, ← eventsOf_append]
      rfl
    | false =>
      constructor
      · intro r'' hr''
        simp only [Bool.false_eq_true, if_false, List.tail_cons, List.mem_cons] at hr''
        rcases hr'' with rfl | hr''
        · exact hflow.fresh rfl hr
        · exact hkeep.2 r'' hr''
      · intro k
        have hhere : ({ s' with waitingBuffer := r' :: rs' } : State K).settled = s'.settled := rfl
        simp only [State.all, List.tail_cons, Bool.false_eq_true, if_false, hhere, hwaiting,
          eventsOf_append, List.map_cons, hevents.2]
        rw [hsettled k, if_neg Bool.false_ne_true, List.append_nil,
          show r'.event = r.event from hflow.event]

/-- So does the whole drain. -/
theorem drain_all {c : Config K} (n : ℕ) {s : State K} (hfresh : s.Fresh) :
    (drain c n s).Fresh ∧ ∀ k, eventsOf k (drain c n s).all = eventsOf k s.all := by
  apply drain_invariant (fun s' => s'.Fresh ∧ ∀ k, eventsOf k s'.all = eventsOf k s.all)
  · rintro s' r rs hwaiting ⟨hfresh', hall⟩
    rcases drainRound_all (c := c) hwaiting hfresh' with ⟨hnext, hsame⟩
    exact ⟨hnext, fun k => (hsame k).trans (hall k)⟩
  · exact ⟨hfresh, fun _ => rfl⟩

end Tapping
end VialQmk
