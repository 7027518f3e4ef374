import VialQmk.Tapping.Progress

/-!
# Tapping - delivery

Every event is processed once, and the events of a key in the order in which they came,
as long as no event overtakes those of its key that wait in the buffer.  The drain can
stop after it has settled the tapping key, with events still in the buffer; an event that
arrives then is processed before them.

Main results:

- Definition {lit}`Overtakes`: the state in which an event can overtake.
- Theorem {lit}`run_all`: along a run without such events, no event is lost, doubled or
  moved in front of another one of its key.
- Theorem {lit}`delivered`: after enough ticks all of them are processed.
-/

namespace VialQmk
namespace Tapping

variable {K : Type} [DecidableEq K] {c : Config K}

/-- The buffer overflows at this event. -/
def Overflows (c : Config K) (s : State K) (e : KeyEvent K) : Prop :=
  e.isEvent = true ∧ s.waitingBuffer.length + 1 = waitingBufferSize ∧
    (processTapping c (newRecord e) s).1 = false

instance (c : Config K) (s : State K) (e : KeyEvent K) : Decidable (Overflows c s e) :=
  inferInstanceAs (Decidable (_ ∧ _))

/-- The tapping key does not keep a new event from being processed. -/
def LetsThrough (c : Config K) (s : State K) (e : KeyEvent K) : Prop :=
  match s.tappingKey with
  | none => True
  | some tk => ¬ tk.Undecided ∧ (tk.event.pressed = true ∨ withinTappingTerm c tk e = true)

instance (c : Config K) : (s : State K) → (e : KeyEvent K) → Decidable (LetsThrough c s e)
  | ⟨none, _, _⟩, _ => inferInstanceAs (Decidable True)
  | ⟨some _, _, _⟩, _ => inferInstanceAs (Decidable (_ ∧ _))

/-- The event arrives while others of its key wait, and is not held back itself. -/
def Overtakes (c : Config K) (s : State K) (e : KeyEvent K) : Prop :=
  e.isEvent = true ∧ (∃ r ∈ s.waitingBuffer, r.event.key = e.key) ∧ LetsThrough c s e

instance (c : Config K) (s : State K) (e : KeyEvent K) : Decidable (Overtakes c s e) :=
  inferInstanceAs (Decidable (_ ∧ _))

/-- Presses and releases take turns. -/
def Alternating (es : List (KeyEvent K)) : Prop :=
  es.IsChain fun e e' => e.pressed ≠ e'.pressed

instance (es : List (KeyEvent K)) : Decidable (Alternating es) :=
  inferInstanceAs (Decidable (es.IsChain _))

/-! ## One event -/

/-- While the tapping key is not settled, only a release without its press in the buffer
is accepted. -/
theorem processUndecided_accepts {s : State K} {tk keyp : KeyRecord K}
    (h : (processUndecided c tk keyp s).1 = true) :
    waitingBufferTyped s keyp.event = false := by
  unfold processUndecided at h
  dsimp only at h
  split_ifs at h with hown htyped hbefore
  exact hbefore.2

/-- An event that is accepted, and does not overtake, has none of its key in front of it. -/
theorem none_waiting {s : State K} {e : KeyEvent K} (horder : ¬ Overtakes c s e)
    (hevent : e.isEvent = true)
    (halt : Alternating (eventsOf e.key (s.waitingBuffer.map KeyRecord.event) ++ [e]))
    (haccept : (processTapping c (newRecord e) s).1 = true) :
    eventsOf e.key (s.waitingBuffer.map KeyRecord.event) = [] := by
  by_contra hnone
  rcases List.eq_nil_or_concat (eventsOf e.key (s.waitingBuffer.map KeyRecord.event)) with
    hnil | ⟨ws, x, hx⟩
  · exact hnone hnil
  have hmem : x ∈ eventsOf e.key (s.waitingBuffer.map KeyRecord.event) := by
    rw [hx, List.concat_eq_append]
    exact List.mem_append_right _ List.mem_cons_self
  rw [eventsOf, List.mem_filter, Bool.and_eq_true, decide_eq_true_eq, List.mem_map] at hmem
  rcases hmem with ⟨⟨r, hr, rfl⟩, -, hkey⟩
  have hclosed : ¬ LetsThrough c s e := fun h => horder ⟨hevent, ⟨r, hr, hkey⟩, h⟩
  unfold LetsThrough at hclosed
  unfold processTapping at haccept
  cases htk : s.tappingKey with
  | none => simp [htk] at hclosed
  | some tk =>
    simp only [htk] at hclosed haccept
    by_cases hundecided : tk.Undecided
    · -- the event would find its predecessor in the buffer
      have htyped : waitingBufferTyped s e = false := by
        rw [if_pos hundecided.1] at haccept
        unfold processPressed at haccept
        rw [if_pos hundecided.2] at haccept
        split_ifs at haccept with hwithin hreal
        · exact processUndecided_accepts haccept
        · exact absurd hevent hreal
      have hturn : r.event.pressed ≠ e.pressed := by
        rw [hx, List.concat_eq_append, Alternating, List.isChain_append] at halt
        exact halt.2.2 r.event (by simp) e (by simp)
      rw [waitingBufferTyped, List.any_eq_false] at htyped
      have hnot := htyped r hr
      simp only [hkey, decide_true, Bool.true_and, bne_iff_ne, ne_eq, not_not] at hnot
      exact hturn hnot.symm
    · rw [not_and, not_or] at hclosed
      rcases hclosed hundecided with ⟨hreleased, houtside⟩
      rw [if_neg hreleased] at haccept
      unfold processReleased at haccept
      rw [show (newRecord e).event = e from rfl, if_neg houtside] at haccept
      exact absurd haccept Bool.false_ne_true

omit [DecidableEq K] in
theorem Alternating.right {es es' : List (KeyEvent K)} (h : Alternating (es ++ es')) :
    Alternating es' :=
  (List.isChain_append.mp h).2.1

theorem alternating_waiting {s : State K} {e : KeyEvent K} {k : K}
    (h : Alternating (eventsOf k s.all ++ [e])) :
    Alternating (eventsOf k (s.waitingBuffer.map KeyRecord.event) ++ [e]) := by
  rw [State.all, eventsOf_append, List.append_assoc] at h
  exact h.right

/-- The event at hand joins the events of its key as the last one. -/
theorem processEvent_all {s : State K} {e : KeyEvent K} (hfresh : s.Fresh)
    (hfull : ¬ Overflows c s e)
    (hnone : e.isEvent = true → (processTapping c (newRecord e) s).1 = true →
      eventsOf e.key (s.waitingBuffer.map KeyRecord.event) = []) :
    (processEvent c s e).Fresh ∧
      ∀ k, eventsOf k (processEvent c s e).all = eventsOf k s.all ++ eventsOf k [e] := by
  have hflow := processTapping_flow c s (fresh_newRecord e)
  have hevents := hflow.waiting
  have hkeep := hflow.waiting_fresh hfresh
  have hsettled := hflow.settled
  unfold Overflows at hfull
  unfold processEvent
  generalize processTapping c (newRecord e) s = res at *
  rcases res with ⟨ok, r', s'⟩
  dsimp only at *
  cases ok with
  | true =>
    refine ⟨hkeep, fun k => ?_⟩
    rw [if_pos rfl, State.all, eventsOf_append, hsettled k, if_pos rfl, hevents, State.all,
      eventsOf_append, eventsOf_append]
    show eventsOf k s.settled ++ eventsOf k [e] ++ _ = _
    by_cases hk : e.isEvent = true ∧ e.key = k
    · rw [← hk.2, hnone hk.1 rfl, List.append_nil, List.append_nil]
    · rw [eventsOf_other (not_and.mp hk), List.append_nil, List.append_nil]
  | false =>
    rw [if_neg Bool.false_ne_true, waitingBufferEnq]
    have hr' : r'.event = e := hflow.event
    rw [hr']
    by_cases hevent : e.isEvent = true
    · rw [if_pos hevent]
      have hlength : s'.waitingBuffer.length = s.waitingBuffer.length := by
        rw [← List.length_map KeyRecord.event, hevents, List.length_map]
      have hroom : ¬ s'.waitingBuffer.length + 1 = waitingBufferSize :=
        fun h => hfull ⟨hevent, hlength ▸ h, rfl⟩
      rw [if_neg hroom]
      constructor
      · intro r hr
        rw [List.mem_append, List.mem_singleton] at hr
        rcases hr with hr | rfl
        · exact hkeep r hr
        · exact hflow.fresh rfl (fresh_newRecord e)
      · intro k
        have hhere : ({ s' with waitingBuffer := s'.waitingBuffer ++ [r'] } : State K).settled =
          s'.settled := rfl
        rw [State.all, hhere, List.map_append, hevents, ← List.append_assoc, eventsOf_append,
          eventsOf_append, hsettled k, if_neg Bool.false_ne_true, List.append_nil, State.all,
          eventsOf_append, List.map_singleton, hr']
    · rw [if_neg hevent]
      refine ⟨hkeep, fun k => ?_⟩
      rw [State.all, eventsOf_append, hsettled k, if_neg Bool.false_ne_true, List.append_nil,
        hevents, ← eventsOf_append, eventsOf_other fun h => absurd h hevent, List.append_nil]
      rfl

/-- One call of {lit}`action_tapping_process`. -/
theorem step_all {s : State K} {e : KeyEvent K} (hfresh : s.Fresh) (hfull : ¬ Overflows c s e)
    (horder : ¬ Overtakes c s e)
    (halt : e.isEvent = true → Alternating (eventsOf e.key s.all ++ [e])) :
    (actionTappingProcess c s e).Fresh ∧
      ∀ k, eventsOf k (actionTappingProcess c s e).all = eventsOf k s.all ++ eventsOf k [e] := by
  have hnone : e.isEvent = true → (processTapping c (newRecord e) s).1 = true →
      eventsOf e.key (s.waitingBuffer.map KeyRecord.event) = [] :=
    fun hevent => none_waiting horder hevent (alternating_waiting (halt hevent))
  rcases processEvent_all hfresh hfull hnone with ⟨hfresh', hevent⟩
  rcases drain_all (c := c) (processEvent c s e).waitingBuffer.length hfresh' with ⟨hnext, hsame⟩
  exact ⟨hnext, fun k => (hsame k).trans (hevent k)⟩

/-! ## Runs -/

/-- Along a run without overflows, in which no event overtakes, the events of each key are
where they are in the order in which they came. -/
theorem run_all {is : List (KeyEvent K)} (halt : ∀ k, Alternating (eventsOf k is))
    (hsafe : StateMachine.Along (actionTappingProcess c)
      (fun s e => ¬ Overflows c s e ∧ ¬ Overtakes c s e) initial is) :
    (StateMachine.run (actionTappingProcess c) initial is).Fresh ∧
      ∀ k, eventsOf k (StateMachine.run (actionTappingProcess c) initial is).all =
        eventsOf k is := by
  apply StateMachine.run_history
    (fun is s => s.Fresh ∧ ∀ k, eventsOf k s.all = eventsOf k is)
    (fun is => ∀ k, Alternating (eventsOf k is)) _ _ _ hsafe halt
  · intro is e h k
    have hk := h k
    rw [eventsOf_append, Alternating, List.isChain_append] at hk
    exact hk.1
  · rintro is s e ⟨hfresh, hall⟩ ⟨hfull, horder⟩ halt
    have hturn : e.isEvent = true → Alternating (eventsOf e.key s.all ++ [e]) := by
      intro hevent
      have hk := halt e.key
      have hown : eventsOf e.key [e] = [e] := by simp [eventsOf, hevent]
      rwa [eventsOf_append, hown, ← hall e.key] at hk
    have hstep : (actionTappingProcess c s e).Fresh ∧
        ∀ k, eventsOf k (actionTappingProcess c s e).all = eventsOf k s.all ++ eventsOf k [e] :=
      step_all hfresh hfull horder hturn
    refine ⟨hstep.1, fun k => ?_⟩
    rw [hstep.2 k, hall k, eventsOf_append]
  · exact ⟨fun _ h => absurd h List.not_mem_nil, fun _ => rfl⟩

/-- Ticks neither add nor lose events. -/
theorem ticks_all {s : State K} {ts : List (KeyEvent K)} (hticks : ∀ t ∈ ts, t.isEvent = false)
    (hfresh : s.Fresh) (k : K) :
    eventsOf k (StateMachine.run (actionTappingProcess c) s ts).all = eventsOf k s.all := by
  have halong : StateMachine.Along (actionTappingProcess c) (fun _ t => t.isEvent = false) s ts :=
    StateMachine.along_of_forall fun t ht _ => hticks t ht
  have hinv := StateMachine.run_invariant
    (fun s' : State K => s'.Fresh ∧ eventsOf k s'.all = eventsOf k s.all)
    (fun s' t h ht => by
      have hnot : ¬ t.isEvent = true := Bool.eq_false_iff.mp ht
      rcases step_all (c := c) (e := t) h.1 (fun hover => hnot hover.1) (fun hover => hnot hover.1)
        (fun hevent => absurd hevent hnot) with ⟨hfresh', hall⟩
      refine ⟨hfresh', ?_⟩
      rw [hall k, eventsOf_other fun hevent => absurd hevent hnot, List.append_nil]
      exact h.2) ⟨hfresh, rfl⟩ halong
  exact hinv.2

omit [DecidableEq K] in
/-- Where nothing waits, all events are processed. -/
theorem all_of_idle {s : State K} (h : s.Idle) : s.all = s.processed := by
  rw [State.all, State.settled, h.1, h.2, List.map_nil, List.append_nil, List.append_nil]

/-- Along a run without overflows, in which no event overtakes those of its key that wait,
each key has its events processed in the order in which they came, and after enough ticks
all of them. -/
theorem delivered (hterm : ∀ k, c.tappingTerm k < 2 ^ 14) {is : List (KeyEvent K)}
    (halt : ∀ k, Alternating (eventsOf k is))
    (hsafe : StateMachine.Along (actionTappingProcess c)
      (fun s e => ¬ Overflows c s e ∧ ¬ Overtakes c s e) initial is) :
    (∀ k, eventsOf k (StateMachine.run (actionTappingProcess c) initial is).processed <+:
      eventsOf k is) ∧
    ∃ n, ∀ ts : List (KeyEvent K), Ticking ts → n ≤ ts.length → ∀ k,
      eventsOf k (StateMachine.run (actionTappingProcess c) initial (is ++ ts)).processed =
        eventsOf k is := by
  rcases run_all halt hsafe with ⟨hfresh, hall⟩
  constructor
  · intro k
    rw [← hall k, State.all, State.settled, List.append_assoc, eventsOf_append]
    exact List.prefix_append _ _
  · rcases ticks_idle (fun k => Nat.le_of_lt (hterm k)) hfresh with ⟨n, hidle⟩
    refine ⟨n, fun ts hticking hn k => ?_⟩
    rw [StateMachine.run_append, ← all_of_idle (hidle ts hticking hn),
      ticks_all hticking.1 hfresh k, hall k]

/-! ## Three keys -/

/-- Two tap-hold keys, the second with a short tapping term, and a plain key. -/
def threeKeys : Config (Fin 3) where
  tappingTerm k := if k = 1 then 10 else 200
  quickTapTerm k := if k = 1 then 10 else 200
  permissiveHold _ := false
  holdOnOtherKeyPress _ := false
  isTapRecord k := k ≠ 2
  retained _ _ := false

/-- A key event. -/
def keyEvent (k : Fin 3) (time : UInt16) (pressed : Bool) : KeyEvent (Fin 3) where
  key := k
  time := time
  type := .key
  pressed := pressed

/-- A key typed while a tap-hold key is down. -/
theorem delivered_typed :
    ∃ n, ∀ ts : List (KeyEvent (Fin 3)), Ticking ts → n ≤ ts.length → ∀ k,
      eventsOf k (StateMachine.run (actionTappingProcess threeKeys) initial
        ([keyEvent 0 0 true, keyEvent 2 10 true, keyEvent 2 20 false, keyEvent 0 300 false] ++
          ts)).processed =
      eventsOf k
        [keyEvent 0 0 true, keyEvent 2 10 true, keyEvent 2 20 false, keyEvent 0 300 false] :=
  (delivered (c := threeKeys) (by decide) (by decide) (by decide)).2

/-- The tap of the first key settles the second one within the same call, and the drain
stops in front of the press of the plain key.  Its release, one millisecond later, is
processed before the press. -/
theorem not_delivered_overtaken :
    let is := [keyEvent 0 0 true, keyEvent 1 100 true, keyEvent 2 150 true, keyEvent 0 160 false,
      keyEvent 2 161 false]
    (∀ k, threeKeys.tappingTerm k < 2 ^ 14) ∧ (∀ k, Alternating (eventsOf k is)) ∧
      StateMachine.Along (actionTappingProcess threeKeys) (fun s e => ¬ Overflows threeKeys s e)
        initial is ∧
      ∀ ts : List (KeyEvent (Fin 3)), Ticking ts →
        eventsOf 2 (StateMachine.run (actionTappingProcess threeKeys) initial (is ++ ts)).processed ≠
          eventsOf 2 is := by
  intro is
  refine ⟨by decide, by decide, by decide, fun ts hticking h => ?_⟩
  have hempty : (StateMachine.run (actionTappingProcess threeKeys) initial is).waitingBuffer = [] :=
    by decide
  have hheld : (StateMachine.run (actionTappingProcess threeKeys) initial is).held = [] := by
    decide
  have hfresh : (StateMachine.run (actionTappingProcess threeKeys) initial is).Fresh := by
    intro r hr
    rw [hempty] at hr
    exact absurd hr List.not_mem_nil
  rw [StateMachine.run_append, ← all_of_idle (ticks_keep_idle hticking.1 ⟨hempty, hheld⟩),
    ticks_all hticking.1 hfresh 2] at h
  exact absurd h (by decide)

end Tapping
end VialQmk
