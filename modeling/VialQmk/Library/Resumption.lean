import VialQmk.Library.Runs

/-!
# Programs that hand over control

A program works on a state and may hand over control to its environment in the middle,
which then changes the state in its own way: above all by running programs over the same
state, before the first one goes on.  Such nested runs form a stack of suspended programs.

Two invariants are followed.  The weak one always holds where control is handed over; the
strong one may be broken there, by a program that will restore it whatever happens.

Main results:

- Definition {lit}`Resumption.Safe`: a program keeps the invariants as long as its
  environment does.
- Theorem {lit}`Machine.sound_run`: if each program is safe, both invariants hold whenever
  no program is suspended.
- Theorem {lit}`Machine.ends_run`: what a program brings about, whatever its environment
  does, holds when it returns.
-/

/-- The run of a program, up to its end or to the point where it hands over control. -/
inductive Resumption (ω σ α : Type) : Type
  | done (s : σ) (a : α)
  | call (o : ω) (s : σ) (k : σ → Resumption ω σ α)

/-- A program over a state. -/
def Program (ω σ α : Type) : Type :=
  σ → Resumption ω σ α

namespace Resumption

variable {ω σ α β : Type} {J I : σ → Prop} {Q Q' : σ → α → Prop}

/-- Go on with another program. -/
def bind : Resumption ω σ α → (α → Program ω σ β) → Resumption ω σ β
  | done s a, f => f a s
  | call o s k, f => call o s fun s' => (k s').bind f

/-- At the end {lit}`Q` holds, as long as the environment keeps {lit}`J` and {lit}`I`.
Where control is handed over {lit}`J` holds, and so does {lit}`I`, or the rest of the
program does not need it. -/
def Safe (J I : σ → Prop) (Q : σ → α → Prop) : Resumption ω σ α → Prop
  | done s a => Q s a
  | call _ s k => J s ∧
      ((I s ∧ ∀ s', J s' → I s' → Safe J I Q (k s')) ∨ ∀ s', J s' → Safe J I Q (k s'))

/-- At the end {lit}`Q` holds, whatever the environment does. -/
def Ends (Q : σ → α → Prop) : Resumption ω σ α → Prop
  | done s a => Q s a
  | call _ _ k => ∀ s', Ends Q (k s')

theorem Safe.bind {Q' : σ → β → Prop} {r : Resumption ω σ α} {f : α → Program ω σ β}
    (h : r.Safe J I Q) (hf : ∀ s a, Q s a → (f a s).Safe J I Q') :
    (r.bind f).Safe J I Q' := by
  induction r with
  | done s a => exact hf s a h
  | call o s k ih =>
    obtain ⟨hJ, ⟨hs, hk⟩ | hk⟩ := h
    · exact ⟨hJ, Or.inl ⟨hs, fun s' hJ' hs' => ih s' (hk s' hJ' hs')⟩⟩
    · exact ⟨hJ, Or.inr fun s' hJ' => ih s' (hk s' hJ')⟩

theorem Safe.mono {r : Resumption ω σ α} (h : r.Safe J I Q) (hQ : ∀ s a, Q s a → Q' s a) :
    r.Safe J I Q' := by
  induction r with
  | done s a => exact hQ s a h
  | call o s k ih =>
    obtain ⟨hJ, ⟨hs, hk⟩ | hk⟩ := h
    · exact ⟨hJ, Or.inl ⟨hs, fun s' hJ' hs' => ih s' (hk s' hJ' hs')⟩⟩
    · exact ⟨hJ, Or.inr fun s' hJ' => ih s' (hk s' hJ')⟩

theorem Ends.bind {Q' : σ → β → Prop} {r : Resumption ω σ α} {f : α → Program ω σ β}
    (h : r.Ends Q) (hf : ∀ s a, Q s a → (f a s).Ends Q') : (r.bind f).Ends Q' := by
  induction r with
  | done s a => exact hf s a h
  | call o s k ih => exact fun s' => ih s' (h s')

theorem ends_trivial (r : Resumption ω σ α) : r.Ends fun _ _ => True := by
  induction r with
  | done s a => trivial
  | call o s k ih => exact ih

end Resumption

namespace Program

variable {ω σ α β : Type}

instance : Monad (Program ω σ) where
  pure a := fun s => .done s a
  bind p f := fun s => (p s).bind f

/-- The state. -/
def get : Program ω σ σ :=
  fun s => .done s s

/-- Change the state. -/
def modify (f : σ → σ) : Program ω σ Unit :=
  fun s => .done (f s) ()

/-- Change the state and return a value. -/
def modifyGet (f : σ → σ × α) : Program ω σ α :=
  fun s => .done (f s).1 (f s).2

/-- Hand over control. -/
def emit (o : ω) : Program ω σ Unit :=
  fun s => .call o s fun s' => .done s' ()

@[simp]
theorem pure_apply (a : α) (s : σ) : (pure a : Program ω σ α) s = .done s a :=
  rfl

@[simp]
theorem bind_apply (p : Program ω σ α) (f : α → Program ω σ β) (s : σ) :
    (p >>= f) s = (p s).bind f :=
  rfl

@[simp]
theorem get_apply (s : σ) : (get : Program ω σ σ) s = .done s s :=
  rfl

@[simp]
theorem modify_apply (f : σ → σ) (s : σ) : (modify f : Program ω σ Unit) s = .done (f s) () :=
  rfl

@[simp]
theorem modifyGet_apply (f : σ → σ × α) (s : σ) :
    (modifyGet f : Program ω σ α) s = .done (f s).1 (f s).2 :=
  rfl

@[simp]
theorem emit_apply (o : ω) (s : σ) :
    (emit o : Program ω σ Unit) s = .call o s fun s' => .done s' () :=
  rfl

end Program

@[simp]
theorem Resumption.bind_done {ω σ α β : Type} (s : σ) (a : α) (f : α → Program ω σ β) :
    (Resumption.done s a).bind f = f a s :=
  rfl

/-! ## The machine -/

/-- The state, and the programs that are suspended, the innermost first. -/
structure Machine (ω σ : Type) where
  state : σ
  stack : List (Program ω σ Unit)

namespace Machine

/-- A program is started, or the innermost one goes on. -/
inductive Input (ι : Type)
  | start (i : ι)
  | resume

variable {ω σ ι : Type}

/-- A program ran up to its end, or is suspended. -/
def deliver (stack : List (Program ω σ Unit)) : Resumption ω σ Unit → Machine ω σ
  | .done s _ => ⟨s, stack⟩
  | .call _ s k => ⟨s, k :: stack⟩

/-- One step, when {lit}`prog` are the programs. -/
def step (prog : ι → Program ω σ Unit) (m : Machine ω σ) : Input ι → Machine ω σ
  | .start i => deliver m.stack (prog i m.state)
  | .resume =>
    match m.stack with
    | [] => m
    | k :: stack => deliver stack (k m.state)

/-- A suspended program that keeps the weak invariant. -/
def Keeps (J : σ → Prop) (k : Program ω σ Unit) : Prop :=
  ∀ s, J s → (k s).Safe J (fun _ => True) fun s' _ => J s'

/-- A suspended program that needs the strong invariant. -/
def Needs (J I : σ → Prop) (k : Program ω σ Unit) : Prop :=
  ∀ s, J s → I s → (k s).Safe J I fun s' _ => I s'

/-- A suspended program that restores the strong invariant. -/
def Restores (J I : σ → Prop) (k : Program ω σ Unit) : Prop :=
  ∀ s, J s → (k s).Safe J I fun s' _ => I s'

/-- The weak invariant holds, and the strong one does, or it will as soon as a suspended
program ends. -/
structure Sound (J I : σ → Prop) (m : Machine ω σ) : Prop where
  weak : J m.state
  keeps : ∀ k ∈ m.stack, Keeps J k
  strong : (I m.state ∧ ∀ k ∈ m.stack, Needs J I k) ∨
    ∃ above k below, m.stack = above ++ k :: below ∧ Restores J I k ∧ ∀ k' ∈ below, Needs J I k'

variable {J I : σ → Prop} {prog : ι → Program ω σ Unit}

theorem weak_deliver {stack : List (Program ω σ Unit)} {r : Resumption ω σ Unit}
    (hJ : r.Safe J (fun _ => True) fun s _ => J s) (hkeeps : ∀ k ∈ stack, Keeps J k) :
    J (deliver stack r).state ∧ ∀ k ∈ (deliver stack r).stack, Keeps J k := by
  cases r with
  | done s a => exact ⟨hJ, hkeeps⟩
  | call o s k =>
    obtain ⟨hs, hk⟩ := hJ
    refine ⟨hs, fun k' hk' => ?_⟩
    rcases List.mem_cons.mp hk' with rfl | hk'
    · intro s' hs'
      rcases hk with ⟨_, hk⟩ | hk
      · exact hk s' hs' trivial
      · exact hk s' hs'
    · exact hkeeps k' hk'

theorem sound_deliver {stack : List (Program ω σ Unit)} {r : Resumption ω σ Unit}
    (hJ : r.Safe J (fun _ => True) fun s _ => J s) (hkeeps : ∀ k ∈ stack, Keeps J k)
    (hI : r.Safe J I fun s _ => I s) (hneeds : ∀ k ∈ stack, Needs J I k) :
    Sound J I (deliver stack r) := by
  obtain ⟨hweak, hkeeps'⟩ := weak_deliver hJ hkeeps
  refine ⟨hweak, hkeeps', ?_⟩
  cases r with
  | done s a => exact Or.inl ⟨hI, hneeds⟩
  | call o s k =>
    obtain ⟨_, ⟨hs, hk⟩ | hk⟩ := hI
    · refine Or.inl ⟨hs, fun k' hk' => ?_⟩
      rcases List.mem_cons.mp hk' with rfl | hk'
      · exact hk
      · exact hneeds k' hk'
    · exact Or.inr ⟨[], k, stack, rfl, hk, hneeds⟩

/-- What a program does above a suspended one leaves that one as it is. -/
theorem deliver_above (above : List (Program ω σ Unit)) (k : Program ω σ Unit)
    (below : List (Program ω σ Unit)) (r : Resumption ω σ Unit) :
    ∃ above', (deliver (above ++ k :: below) r).stack = above' ++ k :: below := by
  cases r with
  | done s a => exact ⟨above, rfl⟩
  | call o s k' => exact ⟨k' :: above, rfl⟩

theorem step_resume {m : Machine ω σ} {k : Program ω σ Unit} {stack : List (Program ω σ Unit)}
    (h : m.stack = k :: stack) : step prog m .resume = deliver stack (k m.state) := by
  simp only [step, h]

theorem sound_step (hweak : ∀ i, Keeps J (prog i)) (hstrong : ∀ i, Needs J I (prog i))
    {m : Machine ω σ} (h : Sound J I m) (input : Input ι) : Sound J I (step prog m input) := by
  obtain ⟨hJ, hkeeps, hI⟩ := h
  cases input with
  | start i =>
    rcases hI with ⟨hs, hneeds⟩ | ⟨above, k, below, hstack, hk, hbelow⟩
    · exact sound_deliver (hweak i _ hJ) hkeeps (hstrong i _ hJ hs) hneeds
    · obtain ⟨hJ', hkeeps'⟩ := weak_deliver (hweak i _ hJ) hkeeps
      obtain ⟨above', habove⟩ := deliver_above above k below (prog i m.state)
      refine ⟨hJ', hkeeps', Or.inr ⟨above', k, below, ?_, hk, hbelow⟩⟩
      rw [← habove, ← hstack]
      rfl
  | resume =>
    rcases hm : m.stack with _ | ⟨k, stack⟩
    · have hsame : step prog m .resume = m := by simp only [step, hm]
      rw [hsame]
      exact ⟨hJ, hkeeps, hI⟩
    · rw [step_resume hm]
      rw [hm] at hkeeps hI
      have hk := hkeeps k List.mem_cons_self m.state hJ
      have hstack : ∀ k' ∈ stack, Keeps J k' := fun k' hk' =>
        hkeeps k' (List.mem_cons_of_mem _ hk')
      rcases hI with ⟨hs, hneeds⟩ | ⟨above, k', below, heq, hk', hbelow⟩
      · exact sound_deliver hk hstack (hneeds k List.mem_cons_self _ hJ hs)
          fun k' hk' => hneeds k' (List.mem_cons_of_mem _ hk')
      · cases above with
        | nil =>
          obtain ⟨rfl, rfl⟩ := List.cons.inj heq
          exact sound_deliver hk hstack (hk' m.state hJ) hbelow
        | cons k'' above =>
          obtain ⟨rfl, rfl⟩ := List.cons.inj heq
          obtain ⟨hJ', hkeeps'⟩ := weak_deliver hk hstack
          obtain ⟨above', habove⟩ := deliver_above above k' below (k m.state)
          exact ⟨hJ', hkeeps', Or.inr ⟨above', k', below, habove, hk', hbelow⟩⟩

/-- A run of safe programs is sound. -/
theorem sound_run (hweak : ∀ i, Keeps J (prog i)) (hstrong : ∀ i, Needs J I (prog i))
    {m : Machine ω σ} (h : Sound J I m) (inputs : List (Input ι)) :
    Sound J I (StateMachine.run (step prog) m inputs) :=
  StateMachine.run_invariant (Sound J I)
    (fun _ input hm _ => sound_step hweak hstrong hm input) h
    (StateMachine.along_trivial m inputs)

/-- Both invariants hold before a program is started. -/
theorem sound_idle {s : σ} (hJ : J s) (hI : I s) : Sound J I (⟨s, []⟩ : Machine ω σ) :=
  ⟨hJ, nofun, Or.inl ⟨hI, nofun⟩⟩

/-- The weak invariant holds all along a run of programs that keep it. -/
theorem weak_run (hweak : ∀ i, Keeps J (prog i)) {s : σ} (hJ : J s) (inputs : List (Input ι)) :
    J (StateMachine.run (step prog) (⟨s, []⟩ : Machine ω σ) inputs).state :=
  (sound_run (I := fun _ => True) hweak
    (fun i s hs _ => (hweak i s hs).mono fun _ _ _ => trivial)
    (sound_idle hJ trivial) inputs).weak

/-- The strong invariant holds whenever no program is suspended. -/
theorem Sound.idle {m : Machine ω σ} (h : Sound J I m) (hidle : m.stack = []) : I m.state := by
  rcases h.strong with ⟨hs, _⟩ | ⟨above, k, below, hstack, _⟩
  · exact hs
  · rw [hidle] at hstack
    exact absurd hstack (by simp)

/-- A program over {lit}`base` that will bring about {lit}`Q` is suspended, or has ended. -/
def Ending (Q : σ → Prop) (base : List (Program ω σ Unit)) (m : Machine ω σ) : Prop :=
  (m.stack = base ∧ Q m.state) ∨
    ∃ above k, m.stack = above ++ k :: base ∧ ∀ s, (k s).Ends fun s' _ => Q s'

theorem ending_deliver {Q : σ → Prop} {base : List (Program ω σ Unit)}
    {r : Resumption ω σ Unit} (h : r.Ends fun s _ => Q s) : Ending Q base (deliver base r) := by
  cases r with
  | done s a => exact Or.inl ⟨rfl, h⟩
  | call o s k => exact Or.inr ⟨[], k, rfl, h⟩

/-- What a program brings about, whatever its environment does, holds when it returns. -/
theorem ends_run {Q : σ → Prop} {m : Machine ω σ} {i : ι}
    (h : (prog i m.state).Ends fun s _ => Q s) {inputs : List (Input ι)}
    (hnested : StateMachine.Along (step prog) (fun m' _ => m.stack.length < m'.stack.length)
      (step prog m (.start i)) inputs)
    (hback : (StateMachine.run (step prog) (step prog m (.start i)) inputs).stack.length =
      m.stack.length) :
    Q (StateMachine.run (step prog) (step prog m (.start i)) inputs).state := by
  have hend := StateMachine.run_invariant (Ending Q m.stack) ?_ (ending_deliver h) hnested
  · rcases hend with ⟨_, hQ⟩ | ⟨above, k, hstack, _⟩
    · exact hQ
    · have hlen := congrArg List.length hstack
      simp only [List.length_append, List.length_cons] at hlen
      have := hback
      simp only [step] at this
      omega
  · intro m' input hm' hlt
    rcases hm' with ⟨hstack, _⟩ | ⟨above, k, hstack, hk⟩
    · exact absurd (congrArg List.length hstack) (by omega)
    · cases input with
      | start i' =>
        obtain ⟨above', habove⟩ := deliver_above above k m.stack (prog i' m'.state)
        refine Or.inr ⟨above', k, ?_, hk⟩
        rw [← habove, ← hstack]
        rfl
      | resume =>
        simp only [step, hstack]
        cases above with
        | nil => exact ending_deliver (hk m'.state)
        | cons k' above =>
          obtain ⟨above', habove⟩ := deliver_above above k m.stack (k' m'.state)
          exact Or.inr ⟨above', k, habove, hk⟩

end Machine
