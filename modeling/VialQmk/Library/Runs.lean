import Mathlib.Data.List.Induction
import Mathlib.Tactic.Common

/-!
# Runs of a state machine

A machine takes a list of inputs one by one.  A condition may be asked of each
state together with the input it meets there; an invariant that each such step
keeps then holds at the end of the run, and along it.

Main results:

- Theorem {lit}`StateMachine.run_invariant`: an invariant of the steps is an invariant
  of the run.
- Theorem {lit}`StateMachine.run_history`: an invariant that speaks about the inputs so
  far.
- Theorem {lit}`StateMachine.along_of_invariant`: what an invariant gives for one step
  holds at every step of the run.
- Theorem {lit}`StateMachine.along_iff_probes`: a condition whose failure shows at a probe is
  exact.
- Theorem {lit}`StateMachine.run_simulation`: a relation between two machines kept by
  each step relates the ends of their runs.
- Theorem {lit}`StateMachine.outputs_eq`: two runs related step by step have the same
  outputs.
-/

namespace StateMachine

variable {σ τ ι κ ω : Type*}

/-- The state after a list of inputs. -/
def run (step : σ → ι → σ) : σ → List ι → σ
  | s, [] => s
  | s, i :: is => run step (step s i) is

/-- Each input of the run meets {lit}`P` in the state where it arrives. -/
def Along (step : σ → ι → σ) (P : σ → ι → Prop) : σ → List ι → Prop
  | _, [] => True
  | s, i :: is => P s i ∧ Along step P (step s i) is

instance decidableAlong (step : σ → ι → σ) (P : σ → ι → Prop) [∀ s i, Decidable (P s i)] :
    (s : σ) → (is : List ι) → Decidable (Along step P s is)
  | _, [] => inferInstanceAs (Decidable True)
  | s, i :: is =>
    have : Decidable (Along step P (step s i) is) := decidableAlong step P (step s i) is
    inferInstanceAs (Decidable (P s i ∧ Along step P (step s i) is))

/-- The outputs along a run. -/
def outputs (step : σ → ι → σ) (out : σ → ι → ω) : σ → List ι → List ω
  | _, [] => []
  | s, i :: is => out s i :: outputs step out (step s i) is

variable {step : σ → ι → σ} {P Q : σ → ι → Prop}

@[simp]
theorem run_nil (s : σ) : run step s [] = s :=
  rfl

@[simp]
theorem run_cons (s : σ) (i : ι) (is : List ι) : run step s (i :: is) = run step (step s i) is :=
  rfl

/-- Runs compose. -/
theorem run_append (s : σ) (is js : List ι) :
    run step s (is ++ js) = run step (run step s is) js := by
  induction is generalizing s with
  | nil => rfl
  | cons i is ih => exact ih (step s i)

theorem along_append {s : σ} {is js : List ι} :
    Along step P s (is ++ js) ↔ Along step P s is ∧ Along step P (run step s is) js := by
  induction is generalizing s with
  | nil => simp [Along]
  | cons i is ih => simp [Along, ih, and_assoc]

/-- Conditions that agree wherever {lit}`P` holds hold along the same runs. -/
theorem along_congr {R : σ → ι → Prop} (h : ∀ s i, P s i → (Q s i ↔ R s i)) {s : σ}
    {is : List ι} (hP : Along step P s is) : Along step Q s is ↔ Along step R s is := by
  induction is generalizing s with
  | nil => exact Iff.rfl
  | cons i is ih => exact and_congr (h s i hP.1) (ih hP.2)

/-- Where {lit}`R` holds along the run, conditions that agree wherever an invariant holds, which
steps that meet the second one keep, hold along the same runs. -/
theorem along_iff_on {R : σ → ι → Prop} (Inv : σ → Prop)
    (hiff : ∀ s i, Inv s → R s i → (P s i ↔ Q s i))
    (hstep : ∀ s i, Inv s → R s i → Q s i → Inv (step s i)) {s : σ} {is : List ι} (h : Inv s)
    (hR : Along step R s is) : Along step P s is ↔ Along step Q s is := by
  induction is generalizing s with
  | nil => exact Iff.rfl
  | cons i is ih =>
    simp only [Along]
    rw [hiff s i h hR.1]
    exact and_congr_right fun hQ => ih (hstep s i h hR.1 hQ) hR.2

/-- Conditions that agree wherever an invariant holds, which steps that meet the second one
keep, hold along the same runs. -/
theorem along_iff_of_invariant (Inv : σ → Prop) (hiff : ∀ s i, Inv s → (P s i ↔ Q s i))
    (hstep : ∀ s i, Inv s → Q s i → Inv (step s i)) {s : σ} {is : List ι} (h : Inv s) :
    Along step P s is ↔ Along step Q s is := by
  induction is generalizing s with
  | nil => exact Iff.rfl
  | cons i is ih =>
    simp only [Along]
    rw [hiff s i h]
    exact and_congr_right fun hQ => ih (hstep s i h hQ)

/-- Two conditions that hold along a run hold together. -/
theorem Along.and {s : σ} {is : List ι} (hP : Along step P s is) (hQ : Along step Q s is) :
    Along step (fun s i => P s i ∧ Q s i) s is := by
  induction is generalizing s with
  | nil => trivial
  | cons i is ih => exact ⟨⟨hP.1, hQ.1⟩, ih hP.2 hQ.2⟩

/-- A condition on the inputs alone. -/
theorem along_of_forall {s : σ} {is : List ι} (h : ∀ i ∈ is, ∀ s, P s i) : Along step P s is := by
  induction is generalizing s with
  | nil => trivial
  | cons i is ih =>
    exact ⟨h i List.mem_cons_self s, ih fun j hj => h j (List.mem_cons_of_mem _ hj)⟩

/-- What each step keeps holds at the end of the run. -/
theorem run_invariant (Inv : σ → Prop) (hstep : ∀ s i, Inv s → P s i → Inv (step s i))
    {s : σ} {is : List ι} (h : Inv s) (hP : Along step P s is) : Inv (run step s is) := by
  induction is generalizing s with
  | nil => exact h
  | cons i is ih => exact ih (hstep s i h hP.1) hP.2

/-- A relation between the inputs so far and the state relates all inputs of the run to
its end, if each step that meets the condition keeps it.  What is known about all inputs
is also known about the first ones. -/
theorem run_history (Inv : List ι → σ → Prop) (Known : List ι → Prop)
    (hknown : ∀ is i, Known (is ++ [i]) → Known is)
    (hstep : ∀ is s i, Inv is s → P s i → Known (is ++ [i]) → Inv (is ++ [i]) (step s i))
    {s : σ} (h : Inv [] s) {is : List ι} (hP : Along step P s is) (hall : Known is) :
    Inv is (run step s is) := by
  induction is using List.reverseRecOn with
  | nil => exact h
  | append_singleton is i ih =>
    rw [along_append] at hP
    rw [run_append]
    exact hstep is _ i (ih hP.1 (hknown is i hall)) hP.2.1 hall

/-- The condition that always holds. -/
theorem along_trivial (s : σ) (is : List ι) : Along step (fun _ _ => True) s is :=
  along_of_forall fun _ _ _ => trivial

/-- What an invariant gives for one step holds at every step. -/
theorem along_of_invariant (Inv : σ → Prop) (hstep : ∀ s i, Inv s → P s i → Inv (step s i))
    (hQ : ∀ s i, Inv s → P s i → Q s i) {s : σ} {is : List ι} (h : Inv s)
    (hP : Along step P s is) : Along step Q s is := by
  induction is generalizing s with
  | nil => trivial
  | cons i is ih => exact ⟨hQ s i h hP.1, ih (hstep s i h hP.1) hP.2⟩

/-- A condition is exact where what it guards against shows at the step itself, or at a probe
after it: it holds along a run just if the run, with a probe after any part of it, is right. -/
theorem along_iff_probes [Nonempty κ] (Inv : σ → Prop) (probe : κ → ι)
    (hstep : ∀ s i, Inv s → P s i → Inv (step s i)) (hright : ∀ s i, Inv s → P s i → Q s i)
    (hprobe : ∀ s k, Inv s → P s (probe k))
    (hback : ∀ s i, Inv s → Q s i → (∀ k, Q (step s i) (probe k)) → P s i)
    {s : σ} (is : List ι) (h : Inv s) :
    Along step P s is ↔ ∀ js, js <+: is → ∀ k, Along step Q s (js ++ [probe k]) := by
  constructor
  · rintro hP js ⟨ks, rfl⟩ k
    have hjs := (along_append.mp hP).1
    have hend := run_invariant Inv hstep h hjs
    exact along_of_invariant Inv hstep hright h (along_append.mpr ⟨hjs, hprobe _ k hend, trivial⟩)
  · intro hQ
    induction is using List.reverseRecOn with
    | nil => trivial
    | append_singleton is i ih =>
      have hP := ih fun js hjs => hQ js (hjs.trans (List.prefix_append _ _))
      have hlast (k : κ) := hQ (is ++ [i]) (List.prefix_refl _) k
      simp only [List.append_assoc, along_append] at hlast
      obtain ⟨k₀⟩ := ‹Nonempty κ›
      exact along_append.mpr ⟨hP, hback _ i (run_invariant Inv hstep h hP) (hlast k₀).2.1.1
        (fun k => (hlast k).2.2.1), trivial⟩

/-- A relation kept by the steps of two machines relates the ends of their runs. -/
theorem run_simulation {step' : τ → ι → τ} (R : σ → τ → Prop)
    (hstep : ∀ s t i, R s t → P s i → R (step s i) (step' t i)) {s : σ} {t : τ} {is : List ι}
    (h : R s t) (hP : Along step P s is) : R (run step s is) (run step' t is) := by
  induction is generalizing s t with
  | nil => exact h
  | cons i is ih => exact ih (hstep s t i h hP.1) hP.2

/-- Two machines side by side, each with its own input. -/
def pair (step : σ → ι → σ) (step' : τ → κ → τ) : σ × τ → ι × κ → σ × τ :=
  fun s i => (step s.1 i.1, step' s.2 i.2)

/-- Two runs side by side whose steps agree on the outputs have the same outputs. -/
theorem outputs_eq {step' : τ → κ → τ} {out : σ → ι → ω} {out' : τ → κ → ω}
    (R : σ → τ → Prop) {E : σ × τ → ι × κ → Prop}
    (hstep : ∀ s t i, R s t → E (s, t) i →
      out s i.1 = out' t i.2 ∧ R (step s i.1) (step' t i.2))
    {s : σ} {t : τ} {is : List (ι × κ)} (h : R s t) (hE : Along (pair step step') E (s, t) is) :
    outputs step out s (is.map Prod.fst) = outputs step' out' t (is.map Prod.snd) := by
  induction is generalizing s t with
  | nil => rfl
  | cons i is ih =>
    obtain ⟨hout, hR⟩ := hstep s t i h hE.1
    exact congrArg₂ List.cons hout (ih hR hE.2)

end StateMachine
