import VialQmk.SplitEncoder.Transactions

/-!
# Split encoder - exactly once

Between the snapshot that the master takes and the drain of the slave's queue the slave
must not queue anything: the drain throws the whole queue away, and until it is executed
another snapshot holds the old events once more.  A drain command that does not reach the
slave is not repeated either.

Main results:

- Definition {lit}`Orderly`: the steps at which none of this happens.
- Theorem {lit}`run_exactly_once`: along a run of such steps every event is delivered once
  and in order, or is still in the queue of the slave.
- Theorem {lit}`lost_and_doubled`: without them an event is lost or delivered twice.
-/

namespace VialQmk
namespace SplitEncoder

variable {n : ℕ}

/-! ## Steps -/

/-- A drain is under way: the master has taken the events, and the slave has not emptied
its queue. -/
def Draining (s : State n) : Prop :=
  s.next = .drain ∨ s.signalQueueDrain = true

instance (s : State n) : Decidable (Draining s) :=
  inferInstanceAs (Decidable (_ ∨ _))

/-- The copy the master looks at in a transaction, if it is up to date. -/
def copyOf (s : State n) (forced : Bool) : Outcome → Option (EncoderEvents n)
  | .ok =>
    match s.next with
    | .checksum =>
      if forced || s.slaveShmem.checksum != s.masterShmem.events.crc then none
      else some s.masterShmem.events
    | .data currChecksum =>
      if currChecksum = s.slaveShmem.events.crc then some s.slaveShmem.events else none
    | .drain => none
  | _ => none

/-- The checksum that goes with the copy. -/
def copyChecksum (s : State n) : UInt8 :=
  match s.next with
  | .checksum => s.slaveShmem.checksum
  | _ => s.masterShmem.checksum

/-- The events the master takes over in a transaction. -/
def taken (s : State n) (forced : Bool) (o : Outcome) : List EncoderEvent :=
  match copyOf s forced o with
  | none => []
  | some events => if s.lastChecksum ≠ copyChecksum s then events.contents else []

/-- The slave queues nothing while a drain is under way, the drain command reaches it, and
the master takes its events over from a copy that is what the slave has in its shared
memory and in its queue. -/
def Orderly (s : State n) : Input → Prop
  | .queue _ => ¬ Draining s
  | .transaction forced o =>
    (s.next = .drain → o ≠ .failsBefore) ∧
      (taken s forced o ≠ [] → copyOf s forced o = some s.slaveEvents ∧
        s.slaveShmem.events = s.slaveEvents)
  | _ => True

/-- The queue of the slave has room for the event. -/
def HasRoom (s : State n) : Input → Prop
  | .queue _ => ¬ s.slaveEvents.ring.IsFull
  | _ => True

instance (s : State n) : (i : Input) → Decidable (Orderly s i)
  | .queue _ => inferInstanceAs (Decidable (¬ _))
  | .drainTask | .snapshot => inferInstanceAs (Decidable True)
  | .transaction forced o => inferInstanceAs (Decidable
      ((s.next = .drain → o ≠ .failsBefore) ∧
      (taken s forced o ≠ [] → copyOf s forced o = some s.slaveEvents ∧
        s.slaveShmem.events = s.slaveEvents)))

instance (s : State n) : (i : Input) → Decidable (HasRoom s i)
  | .queue _ => inferInstanceAs (Decidable (¬ _))
  | .drainTask | .snapshot | .transaction _ _ => inferInstanceAs (Decidable True)

/-! ## The invariant -/

/-- The events in the slave's queue that the master has not taken. -/
def State.pending (s : State n) : List EncoderEvent :=
  if Draining s then [] else s.slaveEvents.contents

/-- Every event is delivered or pending; and while a drain is under way, the checksum in
the shared memory is the last one, and will be. -/
structure OnceOnly (s : State n) : Prop where
  complete : s.queued = s.delivered ++ s.pending
  shmem : s.slaveShmem.checksum = s.slaveShmem.events.crc ∨ s.slaveShmem.events.contents = []
  data : ∀ currChecksum, s.next = .data currChecksum → s.masterShmem.checksum = currChecksum
  single : s.next = .drain → s.signalQueueDrain = false
  current : Draining s → s.slaveShmem = { events := s.slaveEvents, checksum := s.slaveEvents.crc }
  read : s.next = .drain → s.masterShmem.checksum = s.slaveEvents.crc
  settled : s.signalQueueDrain = true → s.lastChecksum = s.slaveEvents.crc ∧
    ∀ currChecksum, s.next = .data currChecksum → currChecksum = s.slaveEvents.crc

section Steps

variable {s : State n}

/-- The master looks at its copy. -/
theorem takeEvents_eq (s : State n) :
    takeEvents s =
      if s.lastChecksum ≠ s.masterShmem.checksum then
        { s with
          masterShmem := { s.masterShmem with events := (dequeueAll n s.masterShmem.events).2 }
          delivered := s.delivered ++ s.masterShmem.events.contents
          lastChecksum :=
            if s.masterShmem.events.contents ≠ [] then s.lastChecksum else s.masterShmem.checksum
          next := if s.masterShmem.events.contents ≠ [] then .drain else .checksum }
      else { s with next := .checksum } := by
  have hall := (dequeueAll_eq s.masterShmem.events).1
  unfold takeEvents
  simp only [hall]
  split_ifs <;> rfl

theorem OnceOnly.queue (h : OnceOnly s) (e : EncoderEvent) (hroom : ¬ s.slaveEvents.ring.IsFull)
    (hdrain : ¬ Draining s) : OnceOnly (queueEvent e s) := by
  rw [queueEvent, if_neg hroom]
  have hpending : s.pending = s.slaveEvents.contents := if_neg hdrain
  have hcontents := contents_queueEvent (e := e) hroom
  constructor
  · show s.queued ++ [e] = s.delivered ++ _
    have hnext : State.pending { s with
        slaveEvents := encoderQueueEvent e s.slaveEvents, queued := s.queued ++ [e] } =
        (encoderQueueEvent e s.slaveEvents).contents := if_neg hdrain
    rw [hnext, hcontents, h.complete, hpending, List.append_assoc]
  · exact h.shmem
  · exact h.data
  · exact h.single
  · exact fun hdraining => absurd hdraining hdrain
  · exact fun hnext => absurd (Or.inl hnext) hdrain
  · exact fun hsignal => absurd (Or.inr hsignal) hdrain

theorem OnceOnly.drain (h : OnceOnly s) : OnceOnly (drainTask s) := by
  unfold drainTask
  by_cases hsignal : s.signalQueueDrain = true
  · rw [if_pos hsignal]
    have hnext : s.next ≠ .drain := fun hnext =>
      Bool.false_ne_true ((h.single hnext).symm.trans hsignal)
    have hidle : ¬ Draining { s with
        signalQueueDrain := false, slaveEvents := encoderQueueDrain s.slaveEvents } := by
      rintro (hdrain | hfalse)
      · exact hnext hdrain
      · exact Bool.false_ne_true hfalse
    have hpending : s.pending = [] := if_pos (Or.inr hsignal)
    constructor
    · show s.queued = s.delivered ++ State.pending { s with
        signalQueueDrain := false, slaveEvents := encoderQueueDrain s.slaveEvents }
      rw [State.pending, if_neg hidle, contents_queueDrain, h.complete, hpending]
    · exact h.shmem
    · exact h.data
    · exact fun _ => rfl
    · exact fun hdraining => absurd hdraining hidle
    · exact fun hdrain => absurd hdrain hnext
    · exact fun hfalse => absurd hfalse Bool.false_ne_true
  · rw [if_neg hsignal]
    exact h

theorem OnceOnly.snapshot (h : OnceOnly s) : OnceOnly (encoderHandlersSlave s) := by
  unfold encoderHandlersSlave
  constructor
  · exact h.complete
  · left
    dsimp only
  · exact h.data
  · exact h.single
  · exact fun _ => rfl
  · exact h.read
  · exact h.settled

/-- The drain command reaches the slave. -/
theorem OnceOnly.execDrain (h : OnceOnly s) (hnext : s.next = .drain) {o : Outcome}
    (ho : o ≠ .failsBefore) : OnceOnly (execDrain o s) := by
  have hbefore : Draining s := Or.inl hnext
  have hset : (s.signalQueueDrain || decide (o ≠ .failsBefore)) = true := by simp [ho]
  have hafter : Draining (SplitEncoder.execDrain o s) := Or.inr hset
  constructor
  · show s.queued = s.delivered ++ (SplitEncoder.execDrain o s).pending
    rw [State.pending, if_pos hafter, h.complete, State.pending, if_pos hbefore]
  · exact h.shmem
  · exact nofun
  · exact nofun
  · exact fun _ => h.current hbefore
  · exact nofun
  · exact fun _ => ⟨h.read hnext, nofun⟩

/-- The master goes on to another transaction, which is no drain. -/
theorem OnceOnly.goOn (h : OnceOnly s) (hnext : s.next ≠ .drain) (m : Shmem n) {next : Next}
    (hnext' : next ≠ .drain) (hdata : ∀ curr, next = .data curr → m.checksum = curr ∧
      (s.signalQueueDrain = true → curr = s.slaveEvents.crc)) :
    OnceOnly { s with masterShmem := m, next := next } := by
  have hsame : Draining { s with masterShmem := m, next := next } ↔ Draining s := by
    constructor
    · rintro (hdrain | hsignal)
      · exact absurd hdrain hnext'
      · exact Or.inr hsignal
    · rintro (hdrain | hsignal)
      · exact absurd hdrain hnext
      · exact Or.inr hsignal
  constructor
  · show s.queued = s.delivered ++ State.pending { s with masterShmem := m, next := next }
    rw [State.pending, if_congr hsame rfl rfl]
    exact h.complete
  · exact h.shmem
  · exact fun curr heq => (hdata curr heq).1
  · exact fun hdrain => absurd hdrain hnext'
  · exact fun hdraining => h.current (hsame.mp hdraining)
  · exact fun hdrain => absurd hdrain hnext'
  · exact fun hset => ⟨(h.settled hset).1, fun curr heq => (hdata curr heq).2 hset⟩

/-- The master waits for its next poll. -/
theorem OnceOnly.rest (h : OnceOnly s) (hnext : s.next ≠ .drain) (m : Shmem n) :
    OnceOnly { s with masterShmem := m, next := .checksum } :=
  h.goOn hnext m nofun nofun

/-- The master looks at a copy of the slave's queue, with its checksum. -/
theorem OnceOnly.take (h : OnceOnly s) (hnext : s.next ≠ .drain) {m : Shmem n}
    (hsignal : s.signalQueueDrain = true → m.checksum = s.lastChecksum)
    (hcrc : m.events.contents ≠ [] → m.checksum = m.events.crc)
    (hcopy : s.lastChecksum ≠ m.checksum → m.events.contents ≠ [] →
      m.events = s.slaveEvents ∧ s.slaveShmem.events = s.slaveEvents) :
    OnceOnly (takeEvents { s with masterShmem := m }) := by
  rw [takeEvents_eq]
  dsimp only
  by_cases hnew : s.lastChecksum ≠ m.checksum
  · rw [if_pos hnew]
    have hquiet : s.signalQueueDrain = false :=
      Bool.eq_false_iff.mpr fun hset => hnew (hsignal hset).symm
    have hidle : ¬ Draining s := by
      rintro (hdrain | hset)
      · exact hnext hdrain
      · exact Bool.false_ne_true (hquiet.symm.trans hset)
    have hpending : s.pending = s.slaveEvents.contents := if_neg hidle
    by_cases hsome : m.events.contents ≠ []
    · rw [if_pos hsome, if_pos hsome]
      rcases hcopy hnew hsome with ⟨hevents, hshmem⟩
      have hchecksum : m.checksum = s.slaveEvents.crc := by rw [hcrc hsome, hevents]
      have hslave : s.slaveShmem.checksum = s.slaveEvents.crc := by
        rcases h.shmem with hcrc | hnone
        · rw [hcrc, hshmem]
        · rw [hshmem, ← hevents] at hnone
          exact absurd hnone hsome
      constructor
      · show s.queued = (s.delivered ++ m.events.contents) ++ []
        rw [h.complete, hpending, hevents, List.append_nil]
      · exact h.shmem
      · exact nofun
      · exact fun _ => hquiet
      · intro _
        show s.slaveShmem = _
        rw [← hshmem] at hslave ⊢
        rw [← hslave]
      · exact fun _ => hchecksum
      · exact fun hset => absurd (hquiet.symm.trans hset) Bool.false_ne_true
    · rw [if_neg hsome, if_neg hsome]
      rw [not_not] at hsome
      have hafter : ∀ (m' : Shmem n) (x : UInt8) (d : List EncoderEvent), ¬ Draining
          { s with masterShmem := m', delivered := d, lastChecksum := x, next := Next.checksum } := by
        rintro m' x d (hdrain | hset)
        · exact absurd hdrain nofun
        · exact Bool.false_ne_true (hquiet.symm.trans hset)
      constructor
      · show s.queued = (s.delivered ++ m.events.contents) ++ State.pending _
        rw [State.pending, if_neg (hafter _ _ _), hsome, List.append_nil, h.complete, hpending]
      · exact h.shmem
      · exact nofun
      · exact nofun
      · exact fun hdraining => absurd hdraining (hafter _ _ _)
      · exact nofun
      · exact fun hset => absurd (hquiet.symm.trans hset) Bool.false_ne_true
  · rw [if_neg hnew]
    exact h.rest hnext m

/-- The checksum is read. -/
theorem OnceOnly.readChecksum (h : OnceOnly s) (hnext : s.next = .checksum) {forced : Bool}
    {o : Outcome} (horderly : taken s forced o ≠ [] →
      copyOf s forced o = some s.slaveEvents ∧ s.slaveShmem.events = s.slaveEvents) :
    OnceOnly (readChecksum forced o s) := by
  have hidle : s.next ≠ .drain := by
    rw [hnext]
    exact nofun
  unfold SplitEncoder.readChecksum
  by_cases hbefore : o = .failsBefore
  · rw [if_pos hbefore]
    exact h
  rw [if_neg hbefore]
  dsimp only
  have hrest := h.rest hidle { s.masterShmem with checksum := s.slaveShmem.checksum }
  by_cases hafter : o = .failsAfter
  · rw [if_pos hafter, hnext]
    exact hrest
  rw [if_neg hafter]
  have hok : o = .ok := by
    cases o with
    | ok => rfl
    | failsBefore => exact absurd rfl hbefore
    | failsAfter => exact absurd rfl hafter
  subst hok
  by_cases hread : (forced || s.slaveShmem.checksum != s.masterShmem.events.crc) = true
  · rw [if_pos hread]
    have hgoesOn : Next.data s.slaveShmem.checksum ≠ .drain := nofun
    apply h.goOn hidle _ hgoesOn
    intro curr heq
    rw [← Next.data.inj heq]
    refine ⟨rfl, fun hset => ?_⟩
    rw [h.current (Or.inr hset)]
  · rw [if_neg hread]
    have hcopy : copyOf s forced .ok = some s.masterShmem.events := by
      rw [copyOf, hnext]
      dsimp only
      rw [if_neg hread]
    have hchecksum : copyChecksum s = s.slaveShmem.checksum := by rw [copyChecksum, hnext]
    apply h.take hidle
    · intro hset
      rw [(h.settled hset).1, h.current (Or.inr hset)]
    · intro _
      rw [Bool.or_eq_true, not_or, bne_iff_ne, not_not] at hread
      exact hread.2
    · intro hnew hsome
      have htaken : taken s forced .ok ≠ [] := by
        rw [taken, hcopy, hchecksum]
        dsimp only
        rwa [if_pos hnew]
      have hboth := horderly htaken
      rw [hcopy, Option.some.injEq] at hboth
      exact hboth

/-- The copy is read. -/
theorem OnceOnly.readData (h : OnceOnly s) {currChecksum : UInt8}
    (hnext : s.next = .data currChecksum) {forced : Bool} {o : Outcome}
    (horderly : taken s forced o ≠ [] →
      copyOf s forced o = some s.slaveEvents ∧ s.slaveShmem.events = s.slaveEvents) :
    OnceOnly (readData currChecksum o s) := by
  have hidle : s.next ≠ .drain := by
    rw [hnext]
    exact nofun
  have hcurr := h.data currChecksum hnext
  unfold SplitEncoder.readData
  by_cases hbefore : o = .failsBefore
  · rw [if_pos hbefore]
    exact h.rest hidle s.masterShmem
  rw [if_neg hbefore]
  dsimp only
  by_cases hread : o = .ok ∧ currChecksum = s.slaveShmem.events.crc
  · rw [if_pos hread]
    rcases hread with ⟨rfl, hcrc⟩
    have hcopy : copyOf s forced .ok = some s.slaveShmem.events := by
      rw [copyOf, hnext]
      dsimp only
      rw [if_pos hcrc]
    have hchecksum : copyChecksum s = s.masterShmem.checksum := by rw [copyChecksum, hnext]
    apply h.take hidle
    · intro hset
      rcases h.settled hset with ⟨hlast, hdata⟩
      rw [hlast, ← hdata currChecksum hnext]
      exact hcurr
    · intro _
      exact hcurr.trans hcrc
    · intro hnew hsome
      have htaken : taken s forced .ok ≠ [] := by
        rw [taken, hcopy, hchecksum]
        dsimp only
        rwa [if_pos hnew]
      have hboth := horderly htaken
      rw [hcopy, Option.some.injEq] at hboth
      exact hboth
  · rw [if_neg hread]
    exact h.rest hidle _

/-- One step. -/
theorem OnceOnly.step {i : Input} (h : OnceOnly s) (hroom : HasRoom s i) (horderly : Orderly s i) :
    OnceOnly (step s i) := by
  cases i with
  | queue e => exact h.queue e hroom horderly
  | drainTask => exact h.drain
  | snapshot => exact h.snapshot
  | transaction forced o =>
    show OnceOnly (transaction forced o s)
    rw [transaction]
    cases hnext : s.next with
    | checksum => exact h.readChecksum hnext horderly.2
    | data currChecksum => exact h.readData hnext horderly.2
    | drain => exact h.execDrain hnext (horderly.1 hnext)

end Steps

theorem onceOnly_initial (n : ℕ) [NeZero n] : OnceOnly (initial n) := by
  have hempty : (initial n).slaveEvents.contents = [] := RingBuffer.contents_empty _ rfl
  have hidle : ¬ Draining (initial n) := by
    rintro (hdrain | hset)
    · cases hdrain
    · exact Bool.false_ne_true hset
  constructor
  · rw [State.pending, if_neg hidle, hempty]
    rfl
  · exact Or.inr hempty
  · intro _ hdata
    cases hdata
  · intro hdrain
    cases hdrain
  · exact fun hdraining => absurd hdraining hidle
  · intro hdrain
    cases hdrain
  · exact fun hset => absurd hset Bool.false_ne_true

/-- Along a run of orderly steps every event that was queued is delivered, once and in
order, or still in the queue of the slave.  A snapshot and two good transactions deliver
these as well, unless they have the checksum the master saw last. -/
theorem run_exactly_once [NeZero n] {is : List Input}
    (hsafe : StateMachine.Along step (fun s i => HasRoom s i ∧ Orderly s i) (initial n) is) :
    let s := StateMachine.run step (initial n) is
    s.queued = s.delivered ++ s.pending ∧
      (s.next = .checksum → s.signalQueueDrain = false → s.slaveEvents.crc ≠ s.lastChecksum →
        (StateMachine.run step s
          [.snapshot, .transaction true .ok, .transaction true .ok]).delivered = s.queued) := by
  intro s
  have hend : OnceOnly s := StateMachine.run_invariant OnceOnly
    (fun s i h hsafe => h.step hsafe.1 hsafe.2) (onceOnly_initial n) hsafe
  refine ⟨hend.complete, fun hnext hquiet hnew => ?_⟩
  have hidle : ¬ Draining s := by
    rintro (hdrain | hset)
    · rw [hnext] at hdrain
      exact absurd hdrain nofun
    · exact Bool.false_ne_true (hquiet.symm.trans hset)
  have hpending : s.pending = s.slaveEvents.contents := if_neg hidle
  simp only [StateMachine.run_cons, StateMachine.run_nil, step, encoderHandlersSlave, transaction,
    hnext, readChecksum, reduceCtorEq, if_false, Bool.true_or, if_true, readData, true_and]
  rw [takeEvents_eq]
  dsimp only
  rw [if_pos (Ne.symm hnew), hend.complete, hpending]

/-! ## Without order -/

/-- An event of the encoder. -/
def turn (i : BitVec 7) : EncoderEvent where
  index := i
  clockwise := true

/-- A poll without failures. -/
def poll : List Input :=
  [.transaction false .ok, .transaction false .ok, .transaction false .ok]

/-- The master takes one event after the other. -/
def goodRun : List Input :=
  [.queue (turn 1), .snapshot] ++ poll ++ [.drainTask, .queue (turn 2), .snapshot] ++ poll

theorem run_exactly_once_two :
    let s := StateMachine.run step (initial 4) goodRun
    s.queued = s.delivered ++ s.pending := by
  have hsafe : StateMachine.Along step (fun s i => HasRoom s i ∧ Orderly s i) (initial 4) goodRun := by
    decide +kernel
  exact (run_exactly_once hsafe).1

/-- No failures, but the slave queues its second event between the snapshot and the drain. -/
def lateRun : List Input :=
  [.queue (turn 1), .snapshot, .queue (turn 2)] ++ poll ++ [.snapshot, .drainTask, .snapshot] ++ poll

/-- The drain command gets lost, and another event follows. -/
def lossyRun : List Input :=
  [.queue (turn 1), .snapshot, .transaction false .ok, .transaction false .ok,
    .transaction false .failsBefore, .queue (turn 2), .snapshot] ++ poll

/-- In the first run the drain throws the second event away; in the second run the first
event is delivered twice. -/
theorem lost_and_doubled :
    (StateMachine.Along step HasRoom (initial 4) lateRun ∧
      (StateMachine.run step (initial 4) lateRun).queued = [turn 1, turn 2] ∧
      (StateMachine.run step (initial 4) lateRun).delivered = [turn 1] ∧
      (StateMachine.run step (initial 4) lateRun).slaveEvents.contents = []) ∧
    StateMachine.Along step HasRoom (initial 4) lossyRun ∧
      (StateMachine.run step (initial 4) lossyRun).queued = [turn 1, turn 2] ∧
      (StateMachine.run step (initial 4) lossyRun).delivered = [turn 1, turn 1, turn 2] := by
  decide +kernel

end SplitEncoder
end VialQmk
