import Mathlib.Data.List.Basic
import Mathlib.Data.Int.ModEq
import Mathlib.Tactic.Common

/-!
# Deferred execution - the table

The executors of {lit}`deferred_exec.c`: a table of callbacks with their trigger times,
each named by a token of eight bits, and a task that goes over the table once per
millisecond.  A callback may itself defer, extend or cancel, so it is modelled by the
calls it makes: each call sees the table the calls before it left, and the callback goes
on with what it returned.

Main results:

- Definition {lit}`State.task`: a run of the task over a table its callbacks change.
- Theorem {lit}`allocateToken_spec`: a token that is handed out is not in the table.
- Theorems {lit}`deferExec_cases`, {lit}`extendDeferredExec_cases` and
  {lit}`cancelDeferredExec_cases`: what the three calls do.
- Theorem {lit}`timerDiff_eq`: the difference of two times less than 2^31 ms apart.
-/

namespace VialQmk
namespace DeferredExec

/-! ## Entries and tokens -/

/-- {lit}`deferred_executor_t`, for callbacks {lit}`κ` and arguments {lit}`α` -/
structure Entry (κ α : Type) where
  token : UInt8
  triggerTime : UInt32
  callback : Option κ
  cbArg : Option α
deriving DecidableEq

variable {κ α : Type}

/-- A slot that is not in use. -/
def Entry.free : Entry κ α :=
  ⟨0, 0, none, none⟩

/-- The variables of {lit}`deferred_exec.c`. -/
structure State (κ α : Type) where
  table : List (Entry κ α)
  currentToken : UInt8
  lastExecutionTime : UInt32

/-- {lit}`token_can_be_used` -/
def tokenCanBeUsed (table : List (Entry κ α)) (token : UInt8) : Bool :=
  token != 0 && table.all fun entry => entry.token != token

/-- The loop of {lit}`allocate_token`: the new {lit}`current_token`, and the token.  After 256
rounds the counter is back at the first token. -/
def allocateLoop (table : List (Entry κ α)) (first : UInt8) : ℕ → UInt8 → UInt8 × UInt8
  | 0, current => (current, 0)
  | rounds + 1, current =>
    if tokenCanBeUsed table current then (current, current)
    else if current + 1 = first then (current + 1, 0)
    else allocateLoop table first rounds (current + 1)

/-- {lit}`allocate_token` -/
def allocateToken (table : List (Entry κ α)) (currentToken : UInt8) : UInt8 × UInt8 :=
  allocateLoop table (currentToken + 1) 256 (currentToken + 1)

/-- The first slot with a token. -/
def findSlot (table : List (Entry κ α)) (token : UInt8) : Option ℕ :=
  table.findIdx? fun entry => entry.token = token

/-! ## Calls -/

/-- {lit}`defer_exec`, at the time {lit}`now` -/
def State.deferExec (now delayMs : UInt32) (callback : Option κ) (cbArg : Option α)
    (s : State κ α) : UInt8 × State κ α :=
  if s.table.length = 0 ∨ delayMs = 0 ∨ callback.isNone then (0, s)
  else
    match findSlot s.table 0 with
    | none => (0, s)
    | some i =>
      let allocated := allocateToken s.table s.currentToken
      let s := { s with currentToken := allocated.1 }
      if allocated.2 = 0 then (0, s)
      else
        (s.currentToken,
          { s with table := s.table.set i ⟨s.currentToken, now + delayMs, callback, cbArg⟩ })

/-- {lit}`extend_deferred_exec`, at the time {lit}`now` -/
def State.extendDeferredExec (now : UInt32) (token : UInt8) (delayMs : UInt32) (s : State κ α) :
    Bool × State κ α :=
  if s.table.length = 0 ∨ delayMs = 0 ∨ token = 0 then (false, s)
  else
    match findSlot s.table token with
    | none => (false, s)
    | some i =>
      (true, { s with
        table := s.table.modify i fun entry => { entry with triggerTime := now + delayMs } })

/-- {lit}`cancel_deferred_exec` -/
def State.cancelDeferredExec (token : UInt8) (s : State κ α) : Bool × State κ α :=
  if s.table.length = 0 ∨ token = 0 then (false, s)
  else
    match findSlot s.table token with
    | none => (false, s)
    | some i => (true, { s with table := s.table.set i .free })

/-- What a callback does: calls, each at its time, and in the end the delay it returns. -/
inductive Calls (κ α : Type) where
  | ret (delayMs : UInt32)
  | deferExec (now : ℕ) (delayMs : UInt32) (callback : Option κ) (cbArg : Option α)
      (next : UInt8 → Calls κ α)
  | extend (now : ℕ) (token : UInt8) (delayMs : UInt32) (next : Bool → Calls κ α)
  | cancel (token : UInt8) (next : Bool → Calls κ α)

/-- What a client of the table sees: the calls that did something, and the callbacks. -/
inductive Event (κ α : Type) where
  | deferred (token : UInt8) (due : ℕ) (callback : Option κ) (cbArg : Option α)
  | extended (token : UInt8) (due : ℕ)
  | cancelled (token : UInt8)
  | invoked (token : UInt8) (triggerTime : UInt32) (callback : Option κ) (cbArg : Option α)
  | returned (delayMs : UInt32)
deriving DecidableEq

/-- A call that defers, with what the client sees of it. -/
def State.callDefer (now : ℕ) (delayMs : UInt32) (callback : Option κ) (cbArg : Option α)
    (s : State κ α) : UInt8 × State κ α × List (Event κ α) :=
  let res := s.deferExec (UInt32.ofNat now) delayMs callback cbArg
  (res.1, res.2, if res.1 = 0 then [] else [.deferred res.1 (now + delayMs.toNat) callback cbArg])

/-- A call that extends. -/
def State.callExtend (now : ℕ) (token : UInt8) (delayMs : UInt32) (s : State κ α) :
    Bool × State κ α × List (Event κ α) :=
  let res := s.extendDeferredExec (UInt32.ofNat now) token delayMs
  (res.1, res.2, if res.1 then [.extended token (now + delayMs.toNat)] else [])

/-- A call that cancels. -/
def State.callCancel (token : UInt8) (s : State κ α) : Bool × State κ α × List (Event κ α) :=
  let res := s.cancelDeferredExec token
  (res.1, res.2, if res.1 then [.cancelled token] else [])

/-- Run a callback: the table it leaves, what a client sees, and the delay. -/
def Calls.run : Calls κ α → State κ α → State κ α × List (Event κ α) × UInt32
  | .ret delayMs, s => (s, [], delayMs)
  | .deferExec now delayMs callback cbArg next, s =>
    let res := s.callDefer now delayMs callback cbArg
    let rest := (next res.1).run res.2.1
    (rest.1, res.2.2 ++ rest.2.1, rest.2.2)
  | .extend now token delayMs next, s =>
    let res := s.callExtend now token delayMs
    let rest := (next res.1).run res.2.1
    (rest.1, res.2.2 ++ rest.2.1, rest.2.2)
  | .cancel token next, s =>
    let res := s.callCancel token
    let rest := (next res.1).run res.2.1
    (rest.1, res.2.2 ++ rest.2.1, rest.2.2)

/-! ## The task -/

/-- {lit}`(int32_t)TIMER_DIFF_32(a, b)` -/
def timerDiff (a b : UInt32) : ℤ :=
  (a - b).toBitVec.toInt

/-- What the task does with the answer of a callback that was invoked from slot {lit}`i` for
the token {lit}`currToken`. -/
def State.requeue (i : ℕ) (currToken : UInt8) (delayMs : UInt32) (s : State κ α) : State κ α :=
  if (s.table[i]?.map Entry.token) ≠ some currToken then s
  else if 0 < delayMs then
    { s with table := s.table.modify i fun entry =>
        { entry with triggerTime := entry.triggerTime + delayMs } }
  else { s with table := s.table.set i .free }

/-- One round of the loop of {lit}`deferred_exec_advanced_task`.  {lit}`calls` is what the
callback does if it is invoked. -/
def State.taskEntry (now : UInt32) (calls : Calls κ α) (i : ℕ) (s : State κ α) :
    State κ α × List (Event κ α) :=
  match s.table[i]? with
  | none => (s, [])
  | some entry =>
    if entry.token ≠ 0 ∧ timerDiff entry.triggerTime now ≤ 0 then
      let res := calls.run s
      (res.1.requeue i entry.token res.2.2,
        .invoked entry.token entry.triggerTime entry.callback entry.cbArg :: res.2.1 ++
          [.returned res.2.2])
    else (s, [])

/-- The loop of {lit}`deferred_exec_advanced_task`, over some slots. -/
def State.taskLoop (now : UInt32) (calls : ℕ → Calls κ α) :
    List ℕ → State κ α → State κ α × List (Event κ α)
  | [], s => (s, [])
  | i :: is, s =>
    let res := s.taskEntry now (calls i) i
    let rest := State.taskLoop now calls is res.1
    (rest.1, res.2 ++ rest.2)

/-- {lit}`deferred_exec_task`, at the time {lit}`now` -/
def State.task (now : UInt32) (calls : ℕ → Calls κ α) (s : State κ α) :
    State κ α × List (Event κ α) :=
  if 0 < timerDiff now s.lastExecutionTime then
    State.taskLoop now calls (List.range s.table.length) { s with lastExecutionTime := now }
  else (s, [])

/-! ## Times -/

/-- The difference of two times that are less than 2^31 ms apart. -/
theorem timerDiff_eq {a b : ℕ} (hab : a < b + 2 ^ 31) (hba : b ≤ a + 2 ^ 31) :
    timerDiff (UInt32.ofNat a) (UInt32.ofNat b) = (a : ℤ) - b := by
  have hint : ∀ n : ℕ, (UInt32.ofNat n).toBitVec.toInt = (n : ℤ).bmod (2 ^ 32) :=
    fun n => BitVec.toInt_ofNat' n
  have hsub : (UInt32.ofNat a - UInt32.ofNat b).toBitVec =
      (UInt32.ofNat a).toBitVec - (UInt32.ofNat b).toBitVec := rfl
  rw [timerDiff, hsub, BitVec.toInt_sub, hint, hint, Int.bmod_sub_bmod, Int.sub_bmod_bmod]
  apply Int.bmod_eq_of_le <;> omega

theorem ofNat_add_ofNat (a : ℕ) (delayMs : UInt32) :
    UInt32.ofNat a + delayMs = UInt32.ofNat (a + delayMs.toNat) := by
  rw [UInt32.ofNat_add, UInt32.ofNat_toNat]

/-! ## Tokens -/

theorem tokenCanBeUsed_eq_true {table : List (Entry κ α)} {token : UInt8} :
    tokenCanBeUsed table token = true ↔ token ≠ 0 ∧ ∀ entry ∈ table, entry.token ≠ token := by
  simp [tokenCanBeUsed]

/-- A token that is handed out is the new counter, and not in the table. -/
theorem allocateLoop_spec {table : List (Entry κ α)} {first : UInt8} {rounds : ℕ} {current : UInt8}
    (h : (allocateLoop table first rounds current).2 ≠ 0) :
    (allocateLoop table first rounds current).1 = (allocateLoop table first rounds current).2 ∧
      ∀ entry ∈ table, entry.token ≠ (allocateLoop table first rounds current).2 := by
  induction rounds generalizing current with
  | zero => exact absurd rfl h
  | succ rounds ih =>
    rw [allocateLoop] at h ⊢
    by_cases hcan : tokenCanBeUsed table current = true
    · rw [if_pos hcan]
      exact ⟨rfl, (tokenCanBeUsed_eq_true.mp hcan).2⟩
    · rw [if_neg hcan] at h ⊢
      by_cases hback : current + 1 = first
      · rw [if_pos hback] at h
        exact absurd rfl h
      · rw [if_neg hback] at h ⊢
        exact ih h

theorem allocateToken_spec {table : List (Entry κ α)} {currentToken : UInt8}
    (h : (allocateToken table currentToken).2 ≠ 0) :
    (allocateToken table currentToken).1 = (allocateToken table currentToken).2 ∧
      ∀ entry ∈ table, entry.token ≠ (allocateToken table currentToken).2 :=
  allocateLoop_spec h

/-- After 256 rounds the loop is through: more of them change nothing. -/
theorem allocateLoop_rounds (table : List (Entry κ α)) (first : UInt8) {rounds rounds' : ℕ}
    {current : UInt8} (hle : rounds ≤ rounds') (hthrough : (first - current - 1).toNat < rounds) :
    allocateLoop table first rounds' current = allocateLoop table first rounds current := by
  induction rounds generalizing rounds' current with
  | zero => exact absurd hthrough (Nat.not_lt_zero _)
  | succ rounds ih =>
    obtain ⟨more, rfl⟩ : ∃ more, rounds' = more + 1 := ⟨rounds' - 1, by omega⟩
    rw [allocateLoop, allocateLoop]
    by_cases hcan : tokenCanBeUsed table current = true
    · rw [if_pos hcan, if_pos hcan]
    · rw [if_neg hcan, if_neg hcan]
      by_cases hback : current + 1 = first
      · rw [if_pos hback, if_pos hback]
      · rw [if_neg hback, if_neg hback]
        have hne : (current.toNat + 1) % 256 ≠ first.toNat := by
          intro heq
          exact hback (UInt8.toNat_inj.mp heq)
        have hfirst := first.toNat_lt
        have hcurrent := current.toNat_lt
        have hone : (1 : UInt8).toNat = 1 := rfl
        apply ih (by omega)
        simp only [UInt8.toNat_sub, UInt8.toNat_add, hone] at hthrough ⊢
        omega

theorem findSlot_eq_some {table : List (Entry κ α)} {token : UInt8} {i : ℕ}
    (h : findSlot table token = some i) : ∃ entry, table[i]? = some entry ∧ entry.token = token := by
  rcases List.findIdx?_eq_some_iff_getElem.mp h with ⟨hi, htoken, -⟩
  exact ⟨table[i], List.getElem?_eq_getElem hi, of_decide_eq_true htoken⟩

/-! ## What the calls do -/

section Cases

variable {s : State κ α}

/-- A call that defers fails and leaves the table, or takes a free slot for a new token. -/
theorem deferExec_cases (now delayMs : UInt32) (callback : Option κ) (cbArg : Option α) :
    ((s.deferExec now delayMs callback cbArg).1 = 0 ∧
      (s.deferExec now delayMs callback cbArg).2.table = s.table ∧
        (s.deferExec now delayMs callback cbArg).2.lastExecutionTime = s.lastExecutionTime) ∨
    ∃ token i entry, s.deferExec now delayMs callback cbArg =
        (token, { s with
          currentToken := token
          table := s.table.set i ⟨token, now + delayMs, callback, cbArg⟩ }) ∧
      token ≠ 0 ∧ (∀ entry ∈ s.table, entry.token ≠ token) ∧ s.table[i]? = some entry ∧
        entry.token = 0 ∧ callback.isSome := by
  unfold State.deferExec
  split_ifs with hargs
  · exact Or.inl ⟨rfl, rfl, rfl⟩
  cases hslot : findSlot s.table 0 with
  | none => exact Or.inl ⟨rfl, rfl, rfl⟩
  | some i =>
    rcases findSlot_eq_some hslot with ⟨entry, hentry, htoken⟩
    dsimp only
    split_ifs with hzero
    · exact Or.inl ⟨rfl, rfl, rfl⟩
    · rcases allocateToken_spec hzero with ⟨hsame, hnew⟩
      refine Or.inr ⟨(allocateToken s.table s.currentToken).1, i, entry, rfl, ?_, ?_, hentry, htoken,
        ?_⟩
      · rwa [hsame]
      · rwa [hsame]
      · cases callback with
        | none => exact absurd (Or.inr (Or.inr rfl)) hargs
        | some callback => rfl

/-- A call that extends fails and leaves everything, or moves the trigger time of its token. -/
theorem extendDeferredExec_cases (now : UInt32) (token : UInt8) (delayMs : UInt32) :
    s.extendDeferredExec now token delayMs = (false, s) ∨
    ∃ i entry, s.extendDeferredExec now token delayMs =
        (true, { s with table := s.table.set i { entry with triggerTime := now + delayMs } }) ∧
      token ≠ 0 ∧ s.table[i]? = some entry ∧ entry.token = token := by
  unfold State.extendDeferredExec
  split_ifs with hargs
  · exact Or.inl rfl
  cases hslot : findSlot s.table token with
  | none => exact Or.inl rfl
  | some i =>
    rcases findSlot_eq_some hslot with ⟨entry, hentry, htoken⟩
    refine Or.inr ⟨i, entry, ?_, fun h => hargs (Or.inr (Or.inr h)), hentry, htoken⟩
    dsimp only
    rw [List.modify_eq_set_getElem?, hentry]
    rfl

/-- A call that cancels fails and leaves everything, or frees the slot of its token. -/
theorem cancelDeferredExec_cases (token : UInt8) :
    s.cancelDeferredExec token = (false, s) ∨
    ∃ i entry, s.cancelDeferredExec token = (true, { s with table := s.table.set i .free }) ∧
      token ≠ 0 ∧ s.table[i]? = some entry ∧ entry.token = token := by
  unfold State.cancelDeferredExec
  split_ifs with hargs
  · exact Or.inl rfl
  cases hslot : findSlot s.table token with
  | none => exact Or.inl rfl
  | some i =>
    rcases findSlot_eq_some hslot with ⟨entry, hentry, htoken⟩
    exact Or.inr ⟨i, entry, rfl, fun h => hargs (Or.inr h), hentry, htoken⟩

end Cases

end DeferredExec
end VialQmk
