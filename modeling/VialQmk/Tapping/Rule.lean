import VialQmk.Tapping.Outcome
import Mathlib.Data.List.Induction

/-!
# Tapping - the rule of tap and hold

What the machine finds out step by step, told as a rule on the whole input: a press of a
tap-hold key is a tap if its release comes within the tapping term and before any event
that settles it as a hold.

Main results:

- Definition {lit}`TapsInTime`: the rule.
- Theorem {lit}`verdict_iff`: the rule, found event by event.
-/

namespace VialQmk
namespace Tapping

variable {K : Type} [DecidableEq K]

/-! ## The rule -/

/-- An event with its time in milliseconds, of which the code sees 16 bits. -/
structure Arrival (K : Type) where
  key : K
  time : ℕ
  type : KeyEventType
  pressed : Bool
deriving DecidableEq

/-- The event the code sees. -/
def Arrival.event (a : Arrival K) : KeyEvent K where
  key := a.key
  time := UInt16.ofNat a.time
  type := a.type
  pressed := a.pressed

/-- The times do not decrease, and successive ones are less than 2^14 ms apart. -/
def Spaced (as : List (Arrival K)) : Prop :=
  as.IsChain fun a b => a.time ≤ b.time ∧ b.time < a.time + 2 ^ 14

/-- The event releases the key that {lit}`p` pressed. -/
def Releases (p a : Arrival K) : Prop :=
  a.event.isEvent = true ∧ a.key = p.key ∧ a.pressed = false

instance (p a : Arrival K) : Decidable (Releases p a) :=
  inferInstanceAs (Decidable (_ ∧ _))

/-- The event settles the press {lit}`p` as a hold: with hold on other key press it is the
press of another key, with permissive hold the release of another key that was pressed
after {lit}`p`. -/
def Settles (c : Config K) (p : Arrival K) (before : List (Arrival K)) (a : Arrival K) : Prop :=
  a.event.isEvent = true ∧ a.key ≠ p.key ∧
    ((a.pressed = true ∧ c.holdOnOtherKeyPress p.key = true) ∨
      (a.pressed = false ∧ c.permissiveHold p.key = true ∧
        ∃ b ∈ before, b.event.isEvent = true ∧ b.key = a.key ∧ b.pressed = true))

instance (c : Config K) (p : Arrival K) (before : List (Arrival K)) (a : Arrival K) :
    Decidable (Settles c p before a) :=
  inferInstanceAs (Decidable (_ ∧ _))

/-- The release comes within the tapping term and before any settling event. -/
def TapsInTime (c : Config K) (p : Arrival K) (as : List (Arrival K)) : Prop :=
  ∃ before q after, as = before ++ q :: after ∧ Releases p q ∧
    q.time < p.time + c.tappingTerm p.key ∧
    ∀ first a rest, before = first ++ a :: rest → ¬ Settles c p first a

/-! ## The rule, event by event -/

/-- What an event decides, if nothing is decided yet. -/
def judge (c : Config K) (p : Arrival K) (before : List (Arrival K)) (a : Arrival K) :
    Option Bool :=
  if p.time + c.tappingTerm p.key ≤ a.time then some false
  else if Releases p a then some true
  else if Settles c p before a then some false
  else none

/-- What the first event decides that decides anything. -/
def verdictFrom (c : Config K) (p : Arrival K) : List (Arrival K) → List (Arrival K) → Option Bool
  | _, [] => none
  | before, a :: as =>
    match judge c p before a with
    | some b => some b
    | none => verdictFrom c p (before ++ [a]) as

/-- What is decided about the press. -/
def verdict (c : Config K) (p : Arrival K) (as : List (Arrival K)) : Option Bool :=
  verdictFrom c p [] as

variable {c : Config K} {p : Arrival K}

theorem verdictFrom_append (before as : List (Arrival K)) (a : Arrival K) :
    verdictFrom c p before (as ++ [a]) =
      match verdictFrom c p before as with
      | some b => some b
      | none => judge c p (before ++ as) a := by
  induction as generalizing before with
  | nil =>
    simp only [List.nil_append, verdictFrom, List.append_nil]
    cases judge c p before a <;> rfl
  | cons a' as ih =>
    simp only [List.cons_append, verdictFrom]
    cases judge c p before a' with
    | some b => rfl
    | none =>
      dsimp only
      rw [ih, List.append_assoc, List.singleton_append]

/-- A verdict stands. -/
theorem verdict_append_some {as : List (Arrival K)} {b : Bool} (h : verdict c p as = some b)
    (a : Arrival K) : verdict c p (as ++ [a]) = some b := by
  rw [verdict, verdictFrom_append]
  rw [verdict] at h
  rw [h]

theorem verdict_append_none {as : List (Arrival K)} (h : verdict c p as = none) (a : Arrival K) :
    verdict c p (as ++ [a]) = judge c p as a := by
  rw [verdict, verdictFrom_append]
  rw [verdict] at h
  rw [h, List.nil_append]

/-- Without a verdict, no event has decided anything. -/
theorem judge_of_verdictFrom_none {before as : List (Arrival K)}
    (h : verdictFrom c p before as = none) {first rest : List (Arrival K)} {a : Arrival K}
    (has : as = first ++ a :: rest) : judge c p (before ++ first) a = none := by
  induction as generalizing before first with
  | nil => simp at has
  | cons a' as ih =>
    rw [verdictFrom] at h
    cases hjudge : judge c p before a' with
    | some b =>
      rw [hjudge] at h
      exact absurd h.symm (Option.some_ne_none b).symm
    | none =>
      rw [hjudge] at h
      cases first with
      | nil =>
        rw [List.nil_append, List.cons.injEq] at has
        rw [List.append_nil, ← has.1]
        exact hjudge
      | cons a'' first =>
        rw [List.cons_append, List.cons.injEq] at has
        have hrest := ih h has.2
        rw [has.1] at hrest
        rwa [List.append_assoc, List.singleton_append] at hrest

/-! ## The rule and its verdict -/

/-- The first event that decides. -/
theorem verdictFrom_some {before as : List (Arrival K)} {b : Bool}
    (h : verdictFrom c p before as = some b) :
    ∃ first q after, as = first ++ q :: after ∧ judge c p (before ++ first) q = some b ∧
      verdictFrom c p before first = none := by
  induction as generalizing before with
  | nil => exact absurd h.symm (Option.some_ne_none b)
  | cons a as ih =>
    rw [verdictFrom] at h
    cases hjudge : judge c p before a with
    | some b' =>
      rw [hjudge] at h
      refine ⟨[], a, as, rfl, ?_, rfl⟩
      rw [List.append_nil, hjudge, ← h]
    | none =>
      rw [hjudge] at h
      rcases ih h with ⟨first, q, after, rfl, hq, hfirst⟩
      refine ⟨a :: first, q, after, rfl, ?_, ?_⟩
      · rw [List.append_assoc, List.singleton_append] at hq
        exact hq
      · rw [verdictFrom, hjudge]
        exact hfirst

theorem judge_late {before : List (Arrival K)} {a : Arrival K}
    (h : ¬ a.time < p.time + c.tappingTerm p.key) : judge c p before a = some false := by
  rw [judge, if_pos (Nat.le_of_not_lt h)]

theorem judge_release {before : List (Arrival K)} {a : Arrival K}
    (htime : a.time < p.time + c.tappingTerm p.key) (h : Releases p a) :
    judge c p before a = some true := by
  rw [judge, if_neg (Nat.not_le_of_lt htime), if_pos h]

theorem judge_other {before : List (Arrival K)} {a : Arrival K}
    (htime : a.time < p.time + c.tappingTerm p.key) (h : a.event.isEvent = true → a.key ≠ p.key) :
    judge c p before a = if Settles c p before a then some false else none := by
  rw [judge, if_neg (Nat.not_le_of_lt htime), if_neg fun hr => h hr.1 hr.2.1]

theorem judge_true {before : List (Arrival K)} {a : Arrival K}
    (h : judge c p before a = some true) :
    a.time < p.time + c.tappingTerm p.key ∧ Releases p a := by
  unfold judge at h
  split_ifs at h with hlate hrelease
  · exact absurd (Option.some.inj h) Bool.false_ne_true
  · exact ⟨Nat.lt_of_not_le hlate, hrelease⟩
  · exact absurd (Option.some.inj h) Bool.false_ne_true

theorem judge_false {before : List (Arrival K)} {a : Arrival K}
    (h : judge c p before a = some false) :
    p.time + c.tappingTerm p.key ≤ a.time ∨ Settles c p before a := by
  unfold judge at h
  split_ifs at h with hlate hrelease hsettles
  · exact Or.inl hlate
  · exact absurd (Option.some.inj h).symm Bool.false_ne_true
  · exact Or.inr hsettles

/-- An event that decides nothing comes in time, and is neither the release nor settling. -/
theorem judge_none {before : List (Arrival K)} {a : Arrival K} (h : judge c p before a = none) :
    a.time < p.time + c.tappingTerm p.key ∧ ¬ Releases p a ∧ ¬ Settles c p before a := by
  unfold judge at h
  split_ifs at h with hlate hrelease hsettles
  exact ⟨Nat.lt_of_not_le hlate, hrelease, hsettles⟩

theorem verdict_none {as first rest : List (Arrival K)} {a : Arrival K}
    (h : verdict c p as = none) (has : as = first ++ a :: rest) :
    a.time < p.time + c.tappingTerm p.key ∧ ¬ Releases p a ∧ ¬ Settles c p first a := by
  have hjudge := judge_of_verdictFrom_none h has
  rw [List.nil_append] at hjudge
  exact judge_none hjudge

theorem verdict_append_list {as : List (Arrival K)} {b : Bool} (h : verdict c p as = some b)
    (more : List (Arrival K)) : verdict c p (as ++ more) = some b := by
  induction more using List.reverseRecOn with
  | nil => rwa [List.append_nil]
  | append_singleton more a ih =>
    rw [← List.append_assoc]
    exact verdict_append_some ih a

omit [DecidableEq K] in
/-- Times do not decrease. -/
theorem Spaced.pairwise {as : List (Arrival K)} (h : Spaced as) :
    as.Pairwise fun a b => a.time ≤ b.time := by
  rw [← List.isChain_iff_pairwise]
  exact h.imp fun a b hab => hab.1

/-- The verdict is the rule. -/
theorem verdict_iff {as : List (Arrival K)} (hspaced : Spaced as) :
    verdict c p as = some true ↔ TapsInTime c p as := by
  constructor
  · intro h
    rcases verdictFrom_some h with ⟨first, q, after, has, hq, hfirst⟩
    rw [List.nil_append] at hq
    rcases judge_true hq with ⟨htime, hrelease⟩
    exact ⟨first, q, after, has, hrelease, htime, fun first' a rest heq =>
      (verdict_none hfirst heq).2.2⟩
  · rintro ⟨before, q, after, rfl, hrelease, htime, hsettles⟩
    have hpairs := hspaced.pairwise
    rw [List.pairwise_append] at hpairs
    have hearly : ∀ a ∈ before, a.time ≤ q.time := fun a ha =>
      hpairs.2.2 a ha q List.mem_cons_self
    have hupto : verdict c p (before ++ [q]) = some true := by
      cases hbefore : verdict c p before with
      | none => rw [verdict_append_none hbefore, judge_release htime hrelease]
      | some b =>
        cases b with
        | true => exact verdict_append_some hbefore q
        | false =>
          rcases verdictFrom_some hbefore with ⟨first, a, rest, heq, ha, -⟩
          rw [List.nil_append] at ha
          rcases judge_false ha with hlate | hsettle
          · have hmem : a ∈ before := by
              rw [heq]
              exact List.mem_append_right _ List.mem_cons_self
            have hle := hearly a hmem
            exact absurd htime (Nat.not_lt_of_le (Nat.le_trans hlate hle))
          · exact absurd hsettle (hsettles first a rest heq)
    have hall := verdict_append_list hupto after
    rwa [List.append_assoc, List.singleton_append] at hall

end Tapping
end VialQmk
