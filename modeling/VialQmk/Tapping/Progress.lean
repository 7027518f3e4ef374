import Mathlib.Data.List.Chain
import VialQmk.Library.Runs
import VialQmk.Tapping.Outcome

/-!
# Tapping - progress

Ticks come to an end of everything that waits.  As long as the tapping key is not settled
a tick may change nothing, but then the time since its press grows, on the circle of
16-bit times, towards the end of the tapping term; every other tick does some of the work.

Main results:

- Theorem {lit}`tick_work`: a tick does some work, or the tapping key keeps waiting inside
  its term.
- Theorem {lit}`ticks_idle`: after enough ticks nothing waits.
-/

namespace VialQmk
namespace Tapping

variable {K : Type}

/-! ## Work -/

/-- What is still to be done with the tapping key. -/
def State.rank (s : State K) : ℕ :=
  match s.tappingKey with
  | none => 0
  | some tk => if tk.event.pressed then (if tk.tap.count = 0 then 2 else 0) else 1

/-- What is still to be done. -/
def State.work (s : State K) : ℕ :=
  3 * s.waitingBuffer.length + s.rank

/-- Nothing waits, neither in the buffer nor in the tapping key. -/
def State.Idle (s : State K) : Prop :=
  s.waitingBuffer = [] ∧ s.held = []

/-- The same press is the tapping key, and still not settled. -/
def StillWaits (s s' : State K) : Prop :=
  ∃ tk tk', s.tappingKey = some tk ∧ tk.Undecided ∧ s'.tappingKey = some tk' ∧ tk'.Undecided ∧
    tk'.event = tk.event

theorem rank_le (s : State K) : s.rank ≤ 2 := by
  unfold State.rank
  split
  · exact Nat.zero_le 2
  · split_ifs <;> decide

theorem rank_undecided {s : State K} {tk : KeyRecord K} (h : s.tappingKey = some tk)
    (htk : tk.Undecided) : s.rank = 2 := by
  rw [State.rank, h]
  dsimp only
  rw [if_pos htk.1, if_pos htk.2]

theorem rank_released {s : State K} {tk : KeyRecord K} (h : s.tappingKey = some tk)
    (htk : tk.event.pressed = false) : s.rank = 1 := by
  rw [State.rank, h]
  dsimp only
  rw [htk, if_neg Bool.false_ne_true]

theorem rank_tapped {s : State K} {tk : KeyRecord K} (h : s.tappingKey = some tk)
    (hpressed : tk.event.pressed = true) (hcount : tk.tap.count ≠ 0) : s.rank = 0 := by
  rw [State.rank, h]
  dsimp only
  rw [if_pos hpressed, if_neg hcount]

theorem rank_none {s : State K} (h : s.tappingKey = none) : s.rank = 0 := by
  rw [State.rank, h]

/-- What waits is work. -/
theorem work_pos {s : State K} (h : ¬ s.Idle) : 0 < s.work := by
  unfold State.work
  by_cases hwaiting : s.waitingBuffer = []
  · have hheld : s.held ≠ [] := fun hnil => h ⟨hwaiting, hnil⟩
    unfold State.held at hheld
    split at hheld
    · split_ifs at hheld with hundecided
      · rw [rank_undecided ‹_› hundecided]
        omega
      · exact absurd rfl hheld
    · exact absurd rfl hheld
  · have hlength := List.length_pos_iff.mpr hwaiting
    omega

theorem StillWaits.work_eq {s s' : State K} (h : StillWaits s s')
    (hlength : s'.waitingBuffer.length = s.waitingBuffer.length) : s'.work = s.work := by
  rcases h with ⟨tk, tk', htk, hundecided, htk', hundecided', -⟩
  rw [State.work, State.work, rank_undecided htk hundecided, rank_undecided htk' hundecided',
    hlength]

variable [DecidableEq K] {c : Config K}

/-! ## The drain -/

theorem processUndecided_refuses {s : State K} {tk keyp : KeyRecord K}
    (htk : s.tappingKey = some tk) (hundecided : tk.Undecided)
    (h : (processUndecided c tk keyp s).1 = false) :
    (processUndecided c tk keyp s).2.2.rank < s.rank ∨
      StillWaits s (processUndecided c tk keyp s).2.2 := by
  have hrank := rank_undecided htk hundecided
  have hsame : StillWaits s s := ⟨tk, tk, htk, hundecided, htk, hundecided, rfl⟩
  have hhold : ∀ calls, ({ s with tappingKey := none, calls := calls } : State K).rank < s.rank := by
    intro calls
    rw [rank_none rfl, hrank]
    decide
  unfold processUndecided at h ⊢
  dsimp only at h ⊢
  by_cases hown : keyp.event.key = tk.event.key ∧ keyp.event.pressed = false
  · rw [if_pos hown]
    left
    have htap : ((s.setTappingKey (some (tk.setCount 1))).processRecord (tk.setCount 1)).rank = 0 :=
      rank_tapped rfl hundecided.1 Nat.one_ne_zero
    rw [hrank, htap]
    decide
  rw [if_neg hown] at h ⊢
  by_cases htyped : keyp.event.pressed = false ∧ waitingBufferTyped s keyp.event = true ∧
      c.permissiveHold tk.event.key = true
  · rw [if_pos htyped]
    exact Or.inl (hhold _)
  rw [if_neg htyped] at h ⊢
  by_cases hbefore : keyp.event.pressed = false ∧ waitingBufferTyped s keyp.event = false
  · rw [if_pos hbefore] at h ⊢
    split_ifs at h ⊢
    exact Or.inr hsame
  rw [if_neg hbefore] at h ⊢
  by_cases hpressed : keyp.event.pressed = true
  · rw [if_pos hpressed]
    split_ifs
    · exact Or.inl (hhold _)
    · exact Or.inr ⟨tk, tk.setInterrupted, htk, hundecided, rfl, hundecided, rfl⟩
  · rw [if_neg hpressed]
    exact Or.inr hsame

/-- A record is refused only after some work, or while the tapping key keeps waiting. -/
theorem processTapping_refuses {s : State K} {keyp : KeyRecord K}
    (h : (processTapping c keyp s).1 = false) :
    (processTapping c keyp s).2.2.rank < s.rank ∨ StillWaits s (processTapping c keyp s).2.2 := by
  unfold processTapping at h ⊢
  cases htk : s.tappingKey with
  | none =>
    simp only [htk] at h
    unfold processReset at h
    split_ifs at h
  | some tk =>
    simp only [htk] at h ⊢
    by_cases hpressed : tk.event.pressed = true
    · rw [if_pos hpressed] at h ⊢
      unfold processPressed at h ⊢
      by_cases hcount : tk.tap.count = 0
      · rw [if_pos hcount] at h ⊢
        split_ifs at h ⊢
        · exact processUndecided_refuses htk ⟨hpressed, hcount⟩ h
        · left
          rw [rank_undecided htk ⟨hpressed, hcount⟩, rank_none rfl]
          decide
      · rw [if_neg hcount] at h
        unfold processTapped at h
        dsimp only at h
        split_ifs at h
    · have hreleased := Bool.eq_false_iff.mpr hpressed
      rw [if_neg hpressed] at h ⊢
      unfold processReleased processReleasedPress at h ⊢
      dsimp only at h ⊢
      split_ifs at h ⊢
      left
      rw [rank_released htk hreleased, rank_none rfl]
      decide

theorem processTapping_length (r : KeyRecord K) (s : State K) (hfresh : r.Fresh) :
    (processTapping c r s).2.2.waitingBuffer.length = s.waitingBuffer.length := by
  have hwaiting := (processTapping_flow c s hfresh).waiting
  rw [← List.length_map KeyRecord.event, hwaiting, List.length_map]

/-- A round of the drain does some work, or it ends it. -/
theorem drainRound_work {s : State K} {r : KeyRecord K} {rs : List (KeyRecord K)}
    (hwaiting : s.waitingBuffer = r :: rs) (hfresh : r.Fresh) :
    (drainRound c r s).2.work < s.work ∨
      (drainRound c r s).1 = false ∧ StillWaits s (drainRound c r s).2 ∧
        (drainRound c r s).2.work = s.work := by
  have hlength := processTapping_length (c := c) r s hfresh
  have hrefuse := @processTapping_refuses _ _ c s r
  unfold drainRound
  generalize processTapping c r s = res at *
  rcases res with ⟨ok, r', s'⟩
  dsimp only at *
  have hpos : s.waitingBuffer.length = rs.length + 1 := by rw [hwaiting, List.length_cons]
  cases ok with
  | true =>
    left
    have hrank := rank_le ({ s' with waitingBuffer := s'.waitingBuffer.tail } : State K)
    simp only [if_true, State.work, List.length_tail]
    omega
  | false =>
    have hsame : (r' :: s'.waitingBuffer.tail).length = s.waitingBuffer.length := by
      rw [List.length_cons, List.length_tail]
      omega
    have hkey : ({ s' with waitingBuffer := r' :: s'.waitingBuffer.tail } : State K).rank =
      s'.rank := rfl
    simp only [Bool.false_eq_true, if_false]
    rcases hrefuse rfl with hless | hwaits
    · left
      rw [State.work, hkey, hsame, State.work]
      omega
    · right
      have hwaits' : StillWaits s { s' with waitingBuffer := r' :: s'.waitingBuffer.tail } := hwaits
      exact ⟨trivial, hwaits', hwaits'.work_eq hsame⟩

/-- The drain never makes work. -/
theorem drain_work_le (n : ℕ) {s : State K} (hfresh : s.Fresh) :
    (drain c n s).work ≤ s.work := by
  have hinv := drain_invariant (c := c) (fun s' => s'.Fresh ∧ s'.work ≤ s.work) (s := s)
    (fun s' r rs hwaiting h => by
      refine ⟨(drainRound_all hwaiting h.1).1, ?_⟩
      rcases drainRound_work (c := c) hwaiting (h.1 r (hwaiting ▸ List.mem_cons_self)) with
        hless | ⟨-, -, heq⟩
      · exact Nat.le_trans (Nat.le_of_lt hless) h.2
      · exact Nat.le_trans (Nat.le_of_eq heq) h.2) n ⟨hfresh, Nat.le_refl _⟩
  exact hinv.2

/-- With something in the buffer the drain does some work, unless the tapping key keeps
waiting. -/
theorem drain_work {n : ℕ} {s : State K} (hfresh : s.Fresh) (hwaiting : s.waitingBuffer ≠ [])
    (hn : 0 < n) :
    (drain c n s).work < s.work ∨ StillWaits s (drain c n s) ∧ (drain c n s).work = s.work := by
  rcases Nat.exists_eq_add_one.mpr hn with ⟨m, rfl⟩
  rw [drain]
  split
  · exact absurd ‹_› hwaiting
  · rename_i r rs hbuffer
    have hround := drainRound_work (c := c) hbuffer (hfresh r (hbuffer ▸ List.mem_cons_self))
    dsimp only
    by_cases hok : (drainRound c r s).1 = true
    · rw [if_pos hok]
      left
      rcases hround with hless | ⟨hfalse, -⟩
      · exact Nat.lt_of_le_of_lt (drain_work_le m (drainRound_all hbuffer hfresh).1) hless
      · exact absurd (hfalse.symm.trans hok) Bool.false_ne_true
    · rw [if_neg hok]
      rcases hround with hless | ⟨-, hwaits, heq⟩
      · exact Or.inl hless
      · exact Or.inr ⟨hwaits, heq⟩

/-! ## Ticks -/

/-- A tick that is refused is not put into the buffer. -/
theorem processEvent_refused {s s' : State K} {t : KeyEvent K} (ht : t.isEvent = false)
    (h : processTapping c (newRecord t) s = (false, newRecord t, s')) :
    processEvent c s t = s' := by
  have hnot : ¬ (newRecord t).event.isEvent = true := by
    rw [newRecord_event, ht]
    exact Bool.false_ne_true
  unfold processEvent
  simp only [h, Bool.false_eq_true, if_false]
  rw [waitingBufferEnq, if_neg hnot]

theorem processEvent_accepted {s s' : State K} {t : KeyEvent K}
    (h : processTapping c (newRecord t) s = (true, newRecord t, s')) :
    processEvent c s t = s' := by
  unfold processEvent
  simp only [h, if_true]

/-- A tick by itself: it leaves the state, and then the term of an unsettled tapping key
is not over, or it does some work and leaves the buffer. -/
theorem processEvent_tick (c : Config K) (s : State K) {t : KeyEvent K}
    (ht : t.isEvent = false) :
    processEvent c s t = s ∧ (∀ tk, s.tappingKey = some tk → tk.Undecided →
        withinTappingTerm c tk t = true) ∨
      (processEvent c s t).rank < s.rank ∧ (processEvent c s t).tappingKey = none ∧
        (processEvent c s t).waitingBuffer = s.waitingBuffer := by
  have hnot : ¬ t.isEvent = true := by
    rw [ht]
    exact Bool.false_ne_true
  cases htk : s.tappingKey with
  | none =>
    left
    refine ⟨processEvent_accepted ?_, fun tk h => absurd h.symm (Option.some_ne_none tk)⟩
    rw [processTapping, htk]
    dsimp only
    rw [processReset, newRecord_event, if_neg hnot]
  | some tk =>
    have hkey : ∀ tk', some tk = some tk' → tk' = tk := fun tk' h => (Option.some.inj h).symm
    by_cases hpressed : tk.event.pressed = true
    · have hstep : processTapping c (newRecord t) s = processPressed c tk (newRecord t) s := by
        rw [processTapping, htk]
        dsimp only
        rw [if_pos hpressed]
      rw [processPressed] at hstep
      by_cases hcount : tk.tap.count = 0
      · by_cases hwithin : withinTappingTerm c tk t = true
        · rw [if_pos hcount, newRecord_event, if_pos hwithin,
            if_neg hnot] at hstep
          left
          refine ⟨processEvent_accepted hstep, fun tk' h _ => ?_⟩
          rw [hkey tk' h]
          exact hwithin
        · rw [if_pos hcount, newRecord_event, if_neg hwithin] at hstep
          right
          rw [processEvent_refused ht hstep, rank_undecided htk ⟨hpressed, hcount⟩, rank_none rfl]
          exact ⟨by decide, rfl, rfl⟩
      · rw [if_neg hcount, newRecord_event, if_neg hnot] at hstep
        left
        refine ⟨processEvent_accepted hstep, fun tk' h hundecided => ?_⟩
        rw [hkey tk' h] at hundecided
        exact absurd hundecided.2 hcount
    · have hreleased := Bool.eq_false_iff.mpr hpressed
      have hstep : processTapping c (newRecord t) s = processReleased c tk (newRecord t) s := by
        rw [processTapping, htk]
        dsimp only
        rw [if_neg hpressed]
      rw [processReleased] at hstep
      by_cases hwithin : withinTappingTerm c tk t = true
      · rw [newRecord_event, if_pos hwithin, if_neg hnot] at hstep
        left
        refine ⟨processEvent_accepted hstep, fun tk' h hundecided => ?_⟩
        rw [hkey tk' h] at hundecided
        exact absurd hundecided.1 hpressed
      · rw [newRecord_event, if_neg hwithin] at hstep
        right
        rw [processEvent_refused ht hstep, rank_released htk hreleased, rank_none rfl]
        exact ⟨by decide, rfl, rfl⟩

/-- A tick does some work, or the tapping key keeps waiting inside its term. -/
theorem tick_work {s : State K} {t : KeyEvent K} (ht : t.isEvent = false) (hfresh : s.Fresh)
    (hbusy : ¬ s.Idle) :
    (actionTappingProcess c s t).work < s.work ∨
      StillWaits s (actionTappingProcess c s t) ∧
        (actionTappingProcess c s t).work = s.work ∧
        ∀ tk, s.tappingKey = some tk → withinTappingTerm c tk t = true := by
  unfold actionTappingProcess
  dsimp only
  rcases processEvent_tick c s ht with ⟨hsame, hwithin⟩ | ⟨hless, hnone, hwaiting⟩
  · rw [hsame]
    by_cases hempty : s.waitingBuffer = []
    · -- nothing to drain: the tapping key is what waits
      right
      rw [hempty, List.length_nil, drain]
      have hheld : s.held ≠ [] := fun hnil => hbusy ⟨hempty, hnil⟩
      cases htk : s.tappingKey with
      | none => exact absurd (held_none htk) hheld
      | some tk =>
        have hundecided : tk.Undecided := by
          by_contra hsettled
          exact hheld (held_settled htk hsettled)
        refine ⟨⟨tk, tk, htk, hundecided, htk, hundecided, rfl⟩, rfl, fun tk' h => ?_⟩
        rw [← Option.some.inj h]
        exact hwithin tk htk hundecided
    · rcases drain_work (c := c) hfresh hempty (List.length_pos_iff.mpr hempty) with
        hless | ⟨hwaits, heq⟩
      · exact Or.inl hless
      · right
        refine ⟨hwaits, heq, fun tk' h => ?_⟩
        rcases hwaits with ⟨tk, -, htk, hundecided, -⟩
        rw [show tk' = tk from Option.some.inj (h.symm.trans htk)]
        exact hwithin tk htk hundecided
  · left
    have hfresh' : (processEvent c s t).Fresh := fun r hr => hfresh r (hwaiting ▸ hr)
    have hwork : (processEvent c s t).work < s.work := by
      rw [State.work, hwaiting, State.work]
      omega
    exact Nat.lt_of_le_of_lt (drain_work_le _ hfresh') hwork

/-- Without anything that waits a tick finds nothing to do. -/
theorem tick_idle {s : State K} {t : KeyEvent K} (ht : t.isEvent = false) (h : s.Idle) :
    (actionTappingProcess c s t).Idle := by
  have hevent : (processEvent c s t).Idle := by
    rcases processEvent_tick c s ht with ⟨hsame, -⟩ | ⟨-, hnone, hwaiting⟩
    · rw [hsame]
      exact h
    · exact ⟨hwaiting.trans h.1, held_none hnone⟩
  unfold actionTappingProcess
  dsimp only
  rw [hevent.1, List.length_nil, drain]
  exact hevent

/-- Ticks keep the buffer fresh. -/
theorem tick_fresh {s : State K} {t : KeyEvent K} (ht : t.isEvent = false) (hfresh : s.Fresh) :
    (actionTappingProcess c s t).Fresh := by
  have hevent : (processEvent c s t).Fresh := by
    rcases processEvent_tick c s ht with ⟨hsame, -⟩ | ⟨-, -, hwaiting⟩
    · rw [hsame]
      exact hfresh
    · exact fun r hr => hfresh r (hwaiting ▸ hr)
  exact (drain_all _ hevent).1

/-! ## Time -/

/-- How long the tapping key can still keep waiting, as of {lit}`now`.  Behind its term it
waits at most for one round of the clock to come to an end. -/
def State.slack (s : State K) (now : UInt16) : ℕ :=
  match s.tappingKey with
  | none => 0
  | some tk =>
    if (now - tk.event.time).toNat < 2 ^ 14 then 2 ^ 14 - (now - tk.event.time).toNat
    else 2 ^ 14 + 1

/-- What is still to be done, and how long it can take. -/
def State.potential (s : State K) (now : UInt16) : ℕ :=
  s.work * 2 ^ 15 + s.slack now

omit [DecidableEq K] in
theorem slack_le (s : State K) (now : UInt16) : s.slack now ≤ 2 ^ 14 + 1 := by
  unfold State.slack
  split
  · exact Nat.zero_le _
  · split_ifs
    · exact Nat.le_trans (Nat.sub_le _ _) (Nat.le_succ _)
    · exact Nat.le_refl _

/-- The clock of a tick is ahead of the one before, by less than a quarter of a round. -/
def Later (t t' : KeyEvent K) : Prop :=
  0 < (t'.time - t.time).toNat ∧ (t'.time - t.time).toNat < 2 ^ 14

theorem elapsed_add (now now' time : UInt16) :
    (now' - time).toNat = ((now - time).toNat + (now' - now).toNat) % 2 ^ 16 := by
  have hnow := now.toNat_lt
  have hnow' := now'.toNat_lt
  have htime := time.toNat_lt
  rw [UInt16.toNat_sub, UInt16.toNat_sub, UInt16.toNat_sub]
  omega

/-- A tick brings the end closer. -/
theorem tick_potential {s : State K} {t t' : KeyEvent K} (hterm : ∀ k, c.tappingTerm k ≤ 2 ^ 14)
    (ht' : t'.isEvent = false) (hlater : Later t t') (hfresh : s.Fresh) (hbusy : ¬ s.Idle) :
    (actionTappingProcess c s t').potential t'.time < s.potential t.time := by
  have hslack := slack_le (actionTappingProcess c s t') t'.time
  rcases tick_work (c := c) ht' hfresh hbusy with hless | ⟨hwaits, heq, hwithin⟩
  · have hround : (actionTappingProcess c s t').work * 2 ^ 15 + 2 ^ 15 ≤ s.work * 2 ^ 15 := by
      rw [← Nat.succ_mul]
      exact Nat.mul_le_mul_right _ hless
    unfold State.potential
    omega
  · rcases hwaits with ⟨tk, tk', htk, -, htk', -, hevent⟩
    have hinside := hwithin tk htk
    rw [withinTappingTerm, decide_eq_true_eq] at hinside
    have hbound := hterm tk.event.key
    have hsum := elapsed_add t.time t'.time tk.event.time
    have hlt := (t.time - tk.event.time).toNat_lt
    rcases hlater with ⟨hpos, hgap⟩
    rw [State.potential, State.potential, heq, State.slack, State.slack, htk, htk']
    dsimp only
    rw [hevent]
    split_ifs <;> omega

/-- Ticks, each later than the one before. -/
def Ticking (ts : List (KeyEvent K)) : Prop :=
  (∀ t ∈ ts, t.isEvent = false) ∧ ts.IsChain Later

/-- Ticks find nothing to do where nothing waits. -/
theorem ticks_keep_idle {s : State K} {ts : List (KeyEvent K)}
    (hticks : ∀ t ∈ ts, t.isEvent = false) (h : s.Idle) :
    (StateMachine.run (actionTappingProcess c) s ts).Idle := by
  have halong : StateMachine.Along (actionTappingProcess c) (fun _ t => t.isEvent = false) s ts :=
    StateMachine.along_of_forall fun t ht _ => hticks t ht
  exact StateMachine.run_invariant State.Idle (fun _ _ hidle ht => tick_idle ht hidle) h halong

theorem ticks_idle_of_potential (hterm : ∀ k, c.tappingTerm k ≤ 2 ^ 14) (n : ℕ) {s : State K}
    {t : KeyEvent K} {ts : List (KeyEvent K)} (hfresh : s.Fresh) (hticking : Ticking (t :: ts))
    (hpotential : s.potential t.time ≤ n) (hn : n ≤ ts.length) :
    (StateMachine.run (actionTappingProcess c) s ts).Idle := by
  induction ts generalizing n s t with
  | nil =>
    by_contra hbusy
    have hwork := work_pos hbusy
    rw [StateMachine.run_nil] at hwork
    unfold State.potential at hpotential
    rw [List.length_nil] at hn
    omega
  | cons t' ts ih =>
    rcases hticking with ⟨hticks, hchain⟩
    rw [List.forall_mem_cons] at hticks
    rw [List.isChain_cons_cons] at hchain
    have hnext : Ticking (t' :: ts) := ⟨hticks.2, hchain.2⟩
    have ht' : t'.isEvent = false := hticks.2 t' List.mem_cons_self
    have hfresh' := tick_fresh (c := c) ht' hfresh
    by_cases hidle : s.Idle
    · exact ticks_keep_idle hticks.2 hidle
    · have hless := tick_potential hterm ht' hchain.1 hfresh hidle
      rw [List.length_cons] at hn
      exact ih (n - 1) hfresh' hnext (by omega) (by omega)

/-- After enough ticks nothing waits. -/
theorem ticks_idle (hterm : ∀ k, c.tappingTerm k ≤ 2 ^ 14) {s : State K} (hfresh : s.Fresh) :
    ∃ n, ∀ ts : List (KeyEvent K), Ticking ts → n ≤ ts.length →
      (StateMachine.run (actionTappingProcess c) s ts).Idle := by
  rcases (⟨_, rfl⟩ : ∃ n, n = s.work * 2 ^ 15 + 2 ^ 15) with ⟨n, hn⟩
  refine ⟨n + 1, fun ts hticking hlength => ?_⟩
  cases ts with
  | nil => exact absurd hlength (Nat.not_succ_le_zero n)
  | cons t ts =>
    have ht : t.isEvent = false := hticking.1 t List.mem_cons_self
    rw [StateMachine.run_cons]
    by_cases hidle : s.Idle
    · exact ticks_keep_idle (fun t' h => hticking.1 t' (List.mem_cons_of_mem t h))
        (tick_idle ht hidle)
    · have hwork : (actionTappingProcess c s t).work ≤ s.work := by
        rcases tick_work (c := c) ht hfresh hidle with hless | ⟨-, heq, -⟩
        · exact Nat.le_of_lt hless
        · exact Nat.le_of_eq heq
      have hslack : (actionTappingProcess c s t).slack t.time ≤ 2 ^ 15 :=
        Nat.le_trans (slack_le _ _) (by decide)
      have hpotential : (actionTappingProcess c s t).potential t.time ≤ n := by
        rw [hn, State.potential]
        exact Nat.add_le_add (Nat.mul_le_mul_right (2 ^ 15) hwork) hslack
      exact ticks_idle_of_potential hterm n (tick_fresh ht hfresh) hticking hpotential
        (Nat.le_of_succ_le_succ hlength)

end Tapping
end VialQmk
