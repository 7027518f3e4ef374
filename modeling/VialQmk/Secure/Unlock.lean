import VialQmk.Library.Runs
import Mathlib.Tactic.Common

/-!
# Secure - the unlock sequence

{lit}`secure_keypress_event` counts the keys of the sequence in a variable of its own.  The
status is changed by other functions too, and these leave the counter alone.

Main results:

- Definition {lit}`step`: the functions of {lit}`secure.c` and {lit}`process_secure.c` in any
  order.
- Theorem {lit}`run_wholeSequence_iff`: along a run every unlocking by keys takes the whole
  sequence since the latest request if and only if the counter was 0 at some time since then.
-/

namespace VialQmk
namespace Secure

/-! ## The functions -/

/-- {lit}`secure_status_t` -/
inductive Status
  | locked
  | pending
  | unlocked
deriving DecidableEq

/-- The row and the column of a key. -/
structure Key where
  row : UInt8
  col : UInt8
deriving DecidableEq

/-- {lit}`SECURE_UNLOCK_SEQUENCE` and the two timeouts, where 0 stands for none. -/
structure Config where
  sequence : List Key
  secureUnlockTimeout : UInt32
  secureIdleTimeout : UInt32
  sequence_ne_nil : sequence ≠ []

/-- The variables of {lit}`secure.c`, and the timer. -/
structure State where
  secureStatus : Status
  unlockTime : UInt32
  idleTime : UInt32
  /-- {lit}`offset` in {lit}`secure_keypress_event` -/
  offset : UInt8
  now : UInt32
deriving DecidableEq

variable (c : Config)

/-- {lit}`sequence_len`, of 8 bits -/
def sequenceLen : UInt8 :=
  c.sequence.length.toUInt8

/-- {lit}`secure_lock` -/
def secureLock (s : State) : State :=
  { s with secureStatus := .locked }

/-- {lit}`secure_unlock` -/
def secureUnlock (s : State) : State :=
  { s with secureStatus := .unlocked, idleTime := s.now }

/-- {lit}`secure_request_unlock` -/
def secureRequestUnlock (s : State) : State :=
  if s.secureStatus = .locked then { s with secureStatus := .pending, unlockTime := s.now } else s

/-- {lit}`secure_activity_event` -/
def secureActivityEvent (s : State) : State :=
  if s.secureStatus = .unlocked then { s with idleTime := s.now } else s

/-- {lit}`secure_keypress_event` -/
def secureKeypressEvent (key : Key) (s : State) : State :=
  if c.sequence[s.offset.toNat]? = some key then
    if s.offset + 1 = sequenceLen c then secureUnlock { s with offset := 0 }
    else { s with offset := s.offset + 1 }
  else secureLock { s with offset := 0 }

/-- The first half of {lit}`secure_task` -/
def unlockTimeout (s : State) : State :=
  if c.secureUnlockTimeout ≠ 0 ∧ s.secureStatus = .pending ∧
      c.secureUnlockTimeout ≤ s.now - s.unlockTime then secureLock s
  else s

/-- The second half of {lit}`secure_task` -/
def idleTimeout (s : State) : State :=
  if c.secureIdleTimeout ≠ 0 ∧ s.secureStatus = .unlocked ∧
      c.secureIdleTimeout ≤ s.now - s.idleTime then secureLock s
  else s

/-- {lit}`secure_task` -/
def secureTask (s : State) : State :=
  idleTimeout c (unlockTimeout c s)

/-- What {lit}`process_secure` tells the keycodes apart by. -/
inductive Keycode
  | secureLock
  | secureUnlock
  | secureToggle
  | secureRequest
  | other
deriving DecidableEq

/-- {lit}`process_secure` -/
def processSecure (keycode : Keycode) (pressed : Bool) (s : State) : State :=
  if pressed then s
  else
    match keycode with
    | .secureLock => Secure.secureLock s
    | .secureUnlock => Secure.secureUnlock s
    | .secureToggle =>
      if s.secureStatus = .locked then Secure.secureUnlock s else Secure.secureLock s
    | .secureRequest => secureRequestUnlock s
    | .other => s

/-- {lit}`preprocess_secure`, and {lit}`process_secure` if it lets the event pass. -/
def keyEvent (key : Key) (keycode : Keycode) (pressed : Bool) (s : State) : State :=
  if s.secureStatus = .pending then if pressed then secureKeypressEvent c key s else s
  else processSecure keycode pressed s

/-! ## Runs -/

/-- What happens next. -/
inductive Input
  | requestUnlock
  | lock
  | unlock
  | activity
  /-- {lit}`secure_keypress_event`, called by other code -/
  | keypress (key : Key)
  | task
  | keyEvent (key : Key) (keycode : Keycode) (pressed : Bool)
  | time (now : UInt32)
deriving DecidableEq

/-- The next state. -/
def next (s : State) : Input → State
  | .requestUnlock => secureRequestUnlock s
  | .lock => secureLock s
  | .unlock => secureUnlock s
  | .activity => secureActivityEvent s
  | .keypress key => secureKeypressEvent c key s
  | .task => secureTask c s
  | .keyEvent key keycode pressed => keyEvent c key keycode pressed s
  | .time now => { s with now := now }

/-- The key that {lit}`secure_keypress_event` gets. -/
def delivered (s : State) : Input → Option Key
  | .keypress key => some key
  | .keyEvent key _ pressed => if s.secureStatus = .pending ∧ pressed = true then some key else none
  | _ => none

/-- A state with what has happened since the status became {lit}`SECURE_PENDING` the last
time: the keys that were delivered, and whether the counter was 0. -/
structure Traced where
  state : State
  sinceRequest : Option (List Key)
  wasZero : Bool

/-- One step.  A new request forgets what was before. -/
def step (t : Traced) (input : Input) : Traced :=
  let s := next c t.state input
  if t.state.secureStatus ≠ .pending ∧ s.secureStatus = .pending then ⟨s, some [], s.offset = 0⟩
  else
    { state := s
      sinceRequest := t.sinceRequest.map (· ++ (delivered t.state input).toList)
      wasZero := t.wasZero || (t.sinceRequest.isSome && s.offset = 0) }

/-- After the start. -/
def initial : Traced :=
  ⟨⟨.locked, 0, 0, 0, 0⟩, none, false⟩

/-- A key that unlocks ends the whole sequence, delivered since the latest request. -/
def WholeSequence (t : Traced) (input : Input) : Prop :=
  (delivered t.state input).isSome = true → t.state.secureStatus ≠ .unlocked →
    (step c t input).state.secureStatus = .unlocked →
      ∃ keys, (step c t input).sinceRequest = some keys ∧ c.sequence <:+ keys

/-- The counter was 0 at some time since the latest request when a key makes it reach the end
of the sequence. -/
def CountsFromZero (t : Traced) (input : Input) : Prop :=
  ∀ key ∈ delivered t.state input, t.state.secureStatus ≠ .unlocked →
    c.sequence[t.state.offset.toNat]? = some key → t.state.offset + 1 = sequenceLen c →
      t.wasZero = true

instance (t : Traced) (input : Input) : Decidable (CountsFromZero c t input) :=
  inferInstanceAs (Decidable (∀ key ∈ delivered t.state input, _))

/-- The counter says how many keys of the sequence came last, if it was 0 since the latest
request, and is ahead of the keys if it was not. -/
structure Counted (t : Traced) : Prop where
  offset : t.state.offset.toNat < c.sequence.length
  zero : t.wasZero = true →
    ∃ keys, t.sinceRequest = some keys ∧ c.sequence.take t.state.offset.toNat <:+ keys
  ahead : t.wasZero = false → ∀ keys ∈ t.sinceRequest, keys.length < t.state.offset.toNat

variable {c} {s : State} {t : Traced} {input : Input} {key : Key} {keys : List Key} {n : ℕ}

/-! ## The counter -/

theorem toNat_add_one {offset : UInt8} (hlength : c.sequence.length ≤ 256)
    (hoffset : offset.toNat < c.sequence.length) (hend : offset + 1 ≠ sequenceLen c) :
    (offset + 1).toNat = offset.toNat + 1 ∧ offset.toNat + 1 < c.sequence.length := by
  rw [sequenceLen, Ne, ← UInt8.toNat_inj, UInt8.toNat_add, UInt8.toNat_ofNat',
    UInt8.toNat_one] at hend
  rw [UInt8.toNat_add, UInt8.toNat_one]
  omega

theorem toNat_add_one_of_end {offset : UInt8} (hlength : c.sequence.length ≤ 256)
    (hoffset : offset.toNat < c.sequence.length) (hend : offset + 1 = sequenceLen c) :
    offset.toNat + 1 = c.sequence.length := by
  rw [sequenceLen, ← UInt8.toNat_inj, UInt8.toNat_add, UInt8.toNat_ofNat',
    UInt8.toNat_one] at hend
  omega

/-- The keys that match so far, and one more. -/
theorem take_succ_suffix (hkeys : c.sequence.take n <:+ keys) (hkey : c.sequence[n]? = some key) :
    c.sequence.take (n + 1) <:+ keys ++ [key] := by
  rw [List.take_add_one, hkey, Option.toList_some]
  rcases hkeys with ⟨before, rfl⟩
  exact ⟨before, (List.append_assoc _ _ _).symm⟩

/-! ## Steps -/

theorem next_of_delivered (hkey : delivered s input = some key) :
    next c s input = secureKeypressEvent c key s := by
  cases input with
  | keypress key' =>
    rw [delivered, Option.some.injEq] at hkey
    rw [next, hkey]
  | keyEvent key' keycode pressed =>
    rw [delivered] at hkey
    split_ifs at hkey with hpressed
    rw [Option.some.injEq] at hkey
    rw [next, keyEvent, if_pos hpressed.1, if_pos hpressed.2, hkey]
  | requestUnlock | lock | unlock | activity | task | time => exact absurd hkey nofun

theorem secureRequestUnlock_offset (s : State) : (secureRequestUnlock s).offset = s.offset := by
  rw [secureRequestUnlock]
  split_ifs <;> rfl

theorem processSecure_offset (keycode : Keycode) (pressed : Bool) (s : State) :
    (processSecure keycode pressed s).offset = s.offset := by
  unfold processSecure
  cases pressed with
  | true => rfl
  | false =>
    cases keycode with
    | secureLock | secureUnlock | other => rfl
    | secureToggle =>
      simp only [Bool.false_eq_true, if_false]
      split_ifs <;> rfl
    | secureRequest => exact secureRequestUnlock_offset s

/-- Only the delivery of a key changes the counter. -/
theorem next_offset (hkey : delivered s input = none) : (next c s input).offset = s.offset := by
  cases input with
  | keypress key => exact absurd hkey nofun
  | requestUnlock => exact secureRequestUnlock_offset s
  | lock | unlock | time => rfl
  | activity =>
    rw [next, secureActivityEvent]
    split_ifs <;> rfl
  | task =>
    simp only [next, secureTask, idleTimeout, unlockTimeout]
    split_ifs <;> rfl
  | keyEvent key keycode pressed =>
    rw [next, keyEvent]
    by_cases hpending : s.secureStatus = .pending
    · cases pressed with
      | true => simp [delivered, hpending] at hkey
      | false =>
        rw [if_pos hpending]
        rfl
    · rw [if_neg hpending]
      exact processSecure_offset keycode pressed s

/-- A key does not make the status pending. -/
theorem not_pending_of_delivered (hstatus : s.secureStatus ≠ .pending) :
    (secureKeypressEvent c key s).secureStatus ≠ .pending := by
  rw [secureKeypressEvent]
  split_ifs
  · exact nofun
  · exact hstatus
  · exact nofun

theorem step_of_delivered (hkey : delivered t.state input = some key) :
    step c t input =
      { state := secureKeypressEvent c key t.state
        sinceRequest := t.sinceRequest.map (· ++ [key])
        wasZero := t.wasZero ||
          (t.sinceRequest.isSome && (secureKeypressEvent c key t.state).offset = 0) } := by
  rw [step, next_of_delivered hkey, hkey]
  exact if_neg fun hpending => not_pending_of_delivered hpending.1 hpending.2

/-- The counter starts again. -/
theorem Counted.restart {wasZero : Bool} {sinceRequest : Option (List Key)}
    (hoffset : s.offset = 0) (hwas : wasZero = true → sinceRequest.isSome = true) :
    Counted c ⟨s, sinceRequest, wasZero || (sinceRequest.isSome && s.offset = 0)⟩ := by
  constructor
  · dsimp only
    rw [hoffset]
    exact List.length_pos_iff.mpr c.sequence_ne_nil
  · intro hzero
    have hsome : sinceRequest.isSome = true := by
      rcases Bool.or_eq_true_iff.mp hzero with hwas' | hnow
      · exact hwas hwas'
      · exact (Bool.and_eq_true_iff.mp hnow).1
    rcases Option.isSome_iff_exists.mp hsome with ⟨keys, hkeys⟩
    refine ⟨keys, hkeys, ?_⟩
    dsimp only
    rw [hoffset]
    exact List.nil_suffix
  · intro hzero keys hkeys
    have hsince : sinceRequest = some keys := hkeys
    simp [hsince, hoffset] at hzero

theorem Counted.step (h : Counted c t) (hlength : c.sequence.length ≤ 256) :
    Counted c (step c t input) := by
  cases hdelivered : delivered t.state input with
  | none =>
    have hoffset : (next c t.state input).offset = t.state.offset := next_offset hdelivered
    rw [Secure.step, hdelivered]
    split_ifs with hpending
    · constructor
      · rw [hoffset]
        exact h.offset
      · intro hzero
        rw [decide_eq_true_eq] at hzero
        exact ⟨[], rfl, by simp [hzero]⟩
      · intro hzero keys hkeys
        rw [decide_eq_false_iff_not, ← UInt8.toNat_inj] at hzero
        rw [← Option.mem_some.mp hkeys]
        exact Nat.pos_of_ne_zero hzero
    · have hsince : t.sinceRequest.map (· ++ (none : Option Key).toList) = t.sinceRequest := by
        simp
      rw [hsince, hoffset]
      constructor
      · exact hoffset ▸ h.offset
      · intro hzero
        rw [hoffset]
        apply h.zero
        by_contra hnot
        rw [Bool.not_eq_true] at hnot
        simp only [hnot, Bool.false_or, Bool.and_eq_true, Option.isSome_iff_exists,
          decide_eq_true_eq] at hzero
        rcases hzero with ⟨⟨keys, hkeys⟩, hzero⟩
        have hahead := h.ahead hnot keys hkeys
        rw [hzero] at hahead
        exact absurd hahead (Nat.not_lt_zero _)
      · intro hzero keys hkeys
        rw [hoffset]
        exact h.ahead (Bool.or_eq_false_iff.mp hzero).1 keys hkeys
  | some key =>
    have hwas : t.wasZero = true → (t.sinceRequest.map (· ++ [key])).isSome = true := by
      intro hzero
      rcases h.zero hzero with ⟨keys, hkeys, -⟩
      rw [hkeys]
      rfl
    rw [step_of_delivered hdelivered, ← Option.isSome_map (f := (· ++ [key]))]
    by_cases hmatch : c.sequence[t.state.offset.toNat]? = some key
    · by_cases hend : t.state.offset + 1 = sequenceLen c
      · apply Counted.restart _ hwas
        rw [secureKeypressEvent, if_pos hmatch, if_pos hend]
        rfl
      · rcases toNat_add_one hlength h.offset hend with ⟨hsucc, hlt⟩
        rw [secureKeypressEvent, if_pos hmatch, if_neg hend]
        have hzero : t.state.offset + 1 ≠ 0 := by
          rw [Ne, ← UInt8.toNat_inj, hsucc]
          exact Nat.succ_ne_zero _
        simp only [hzero, decide_false, Bool.and_false, Bool.or_false]
        constructor
        · dsimp only
          rwa [hsucc]
        · intro hzero
          rcases h.zero hzero with ⟨keys, hkeys, hsuffix⟩
          refine ⟨keys ++ [key], by simp [hkeys], ?_⟩
          dsimp only
          rw [hsucc]
          exact take_succ_suffix hsuffix hmatch
        · intro hzero keys hkeys
          rcases Option.map_eq_some_iff.mp hkeys with ⟨before, hbefore, rfl⟩
          dsimp only
          rw [hsucc, List.length_append, List.length_singleton]
          exact Nat.succ_lt_succ (h.ahead hzero before hbefore)
    · apply Counted.restart _ hwas
      rw [secureKeypressEvent, if_neg hmatch]
      rfl

/-- A key unlocks when it is the last one of the sequence. -/
theorem unlocked_iff (hkey : delivered t.state input = some key)
    (hstatus : t.state.secureStatus ≠ .unlocked) :
    (step c t input).state.secureStatus = .unlocked ↔
      c.sequence[t.state.offset.toNat]? = some key ∧ t.state.offset + 1 = sequenceLen c := by
  rw [step_of_delivered hkey, secureKeypressEvent]
  dsimp only
  split_ifs with hmatch hend
  · exact iff_of_true rfl ⟨hmatch, hend⟩
  · exact iff_of_false hstatus fun h => hend h.2
  · exact iff_of_false nofun fun h => hmatch h.1

/-- The last key ends the whole sequence if and only if the counter was 0. -/
theorem Counted.suffix_iff (h : Counted c t) (hlength : c.sequence.length ≤ 256)
    (hkey : delivered t.state input = some key)
    (hmatch : c.sequence[t.state.offset.toNat]? = some key)
    (hend : t.state.offset + 1 = sequenceLen c) :
    (∃ keys, (Secure.step c t input).sinceRequest = some keys ∧ c.sequence <:+ keys) ↔
      t.wasZero = true := by
  have hlast : t.state.offset.toNat + 1 = c.sequence.length :=
    toNat_add_one_of_end hlength h.offset hend
  rw [step_of_delivered hkey]
  constructor
  · rintro ⟨keys, hkeys, hsuffix⟩
    by_contra hnot
    rcases Option.map_eq_some_iff.mp hkeys with ⟨before, hbefore, rfl⟩
    have hahead := h.ahead ((Bool.not_eq_true _).mp hnot) before hbefore
    have hle := hsuffix.length_le
    rw [List.length_append, List.length_singleton] at hle
    omega
  · intro hzero
    rcases h.zero hzero with ⟨keys, hkeys, hsuffix⟩
    refine ⟨keys ++ [key], by simp [hkeys], ?_⟩
    have hwhole := take_succ_suffix hsuffix hmatch
    rwa [hlast, List.take_length] at hwhole

theorem Counted.wholeSequence_iff (h : Counted c t) (hlength : c.sequence.length ≤ 256) :
    WholeSequence c t input ↔ CountsFromZero c t input := by
  cases hdelivered : delivered t.state input with
  | none => simp [WholeSequence, CountsFromZero, hdelivered]
  | some key =>
    constructor
    · intro hwhole key' hkey hstatus hmatch hend
      rw [hdelivered, Option.mem_some] at hkey
      subst hkey
      apply (h.suffix_iff hlength hdelivered hmatch hend).mp
      apply hwhole (by rw [hdelivered]; rfl) hstatus
      exact (unlocked_iff hdelivered hstatus).mpr ⟨hmatch, hend⟩
    · intro hzero _ hstatus hunlocked
      rcases (unlocked_iff hdelivered hstatus).mp hunlocked with ⟨hmatch, hend⟩
      apply (h.suffix_iff hlength hdelivered hmatch hend).mpr
      exact hzero key hdelivered hstatus hmatch hend

theorem counted_initial : Counted c initial :=
  ⟨List.length_pos_iff.mpr c.sequence_ne_nil, nofun, nofun⟩

/-- Along a run every unlocking by keys takes the whole sequence since the latest request, if
and only if the counter was 0 at some time since then whenever it reaches the end. -/
theorem run_wholeSequence_iff (c : Config) (inputs : List Input)
    (hlength : c.sequence.length ≤ 256) :
    StateMachine.Along (step c) (WholeSequence c) initial inputs ↔
      StateMachine.Along (step c) (CountsFromZero c) initial inputs := by
  apply StateMachine.along_iff_of_invariant (Counted c)
  · exact fun t input h => h.wholeSequence_iff hlength
  · exact fun t input h _ => h.step hlength
  · exact counted_initial

/-- Two keys after one request. -/
theorem run_wholeSequence_iff_twoKeys :
    let c : Config := ⟨[⟨0, 0⟩, ⟨0, 1⟩], 5000, 60000, nofun⟩
    c.sequence.length ≤ 256 ∧ StateMachine.Along (step c) (WholeSequence c) initial
      [.requestUnlock, .keypress ⟨0, 0⟩, .keyEvent ⟨0, 1⟩ .other true] := by
  intro c
  refine ⟨by decide, (run_wholeSequence_iff c _ (by decide)).mpr ?_⟩
  decide

/-- The first key comes before the timeout, and the second one after a new request. -/
theorem not_wholeSequence_timeout :
    let c : Config := ⟨[⟨0, 0⟩, ⟨0, 1⟩], 5000, 60000, nofun⟩
    let t := StateMachine.run (step c) initial
      [.requestUnlock, .keyEvent ⟨0, 0⟩ .other true, .time 5000, .task, .requestUnlock]
    t.state.secureStatus = .pending ∧ t.sinceRequest = some [] ∧
      (step c t (.keyEvent ⟨0, 1⟩ .other true)).state.secureStatus = .unlocked ∧
      ¬ WholeSequence c t (.keyEvent ⟨0, 1⟩ .other true) := by
  intro c t
  have hunlocked : (step c t (.keyEvent ⟨0, 1⟩ .other true)).state.secureStatus = .unlocked := by
    decide +kernel
  refine ⟨by decide +kernel, by decide +kernel, hunlocked, fun hwhole => ?_⟩
  rcases hwhole (by decide +kernel) (by decide +kernel) hunlocked with ⟨keys, hkeys, hsuffix⟩
  have hsince : (step c t (.keyEvent ⟨0, 1⟩ .other true)).sinceRequest = some [⟨0, 1⟩] := by
    decide +kernel
  have hone := Option.some.inj (hsince.symm.trans hkeys)
  rw [← hone] at hsuffix
  exact absurd hsuffix.length_le (by decide)

end Secure
end VialQmk
