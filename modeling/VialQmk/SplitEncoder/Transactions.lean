import Mathlib.Algebra.GroupWithZero.Nat
import Mathlib.Tactic.Common
import VialQmk.Library.RingBuffer
import VialQmk.Library.Runs

/-!
# Split encoder - transactions

The slave half queues encoder events and keeps a copy of its queue in the shared memory,
with a checksum.  A poll of the master is a sequence of transactions: it reads the checksum,
reads the copy if it is another one, takes the events out of its own copy, and commands the
slave to drain its queue.  Each transaction can fail, before or after the slave has seen it,
and the slave works on between them.

Main results:

- Definition {lit}`step`: the slave's part of the work and the transactions of the master,
  in any order.
- Theorem {lit}`dequeueAll_eq`: the master takes all events of its copy.
-/

namespace VialQmk
namespace SplitEncoder

/-! ## Event queues -/

/-- {lit}`encoder_event_t` -/
structure EncoderEvent where
  index : BitVec 7
  clockwise : Bool
deriving DecidableEq

/-- {lit}`encoder_events_t`, with {lit}`MAX_QUEUED_ENCODER_EVENTS` slots -/
structure EncoderEvents (n : ℕ) where
  enqueued : UInt8
  dequeued : UInt8
  ring : RingBuffer EncoderEvent n
deriving DecidableEq

variable {n : ℕ}

/-- The events that are in the queue. -/
def EncoderEvents.contents (events : EncoderEvents n) : List EncoderEvent :=
  events.ring.contents

/-- {lit}`encoder_queue_event_advanced` -/
def encoderQueueEvent (e : EncoderEvent) (events : EncoderEvents n) : EncoderEvents n :=
  if events.ring.IsFull then events
  else { events with ring := events.ring.push e, enqueued := events.enqueued + 1 }

/-- {lit}`encoder_dequeue_event_advanced` -/
def encoderDequeueEvent (events : EncoderEvents n) : Option (EncoderEvent × EncoderEvents n) :=
  if events.ring.IsEmpty then none
  else some (events.ring.slots events.ring.tail,
    { events with ring := events.ring.pop, dequeued := events.dequeued + 1 })

/-- {lit}`encoder_queue_drain` -/
def encoderQueueDrain (events : EncoderEvents n) : EncoderEvents n :=
  { events with ring := events.ring.clear, dequeued := events.enqueued }

/-- The loop of the master over the events of its copy. -/
def dequeueAll : ℕ → EncoderEvents n → List EncoderEvent × EncoderEvents n
  | 0, events => ([], events)
  | fuel + 1, events =>
    match encoderDequeueEvent events with
    | none => ([], events)
    | some (e, events) =>
      let res := dequeueAll fuel events
      (e :: res.1, res.2)

/-! ## Checksums -/

/-- One bit of {lit}`crc8`. -/
def crcBit (crc : UInt8) : UInt8 :=
  if crc &&& 0x80 ≠ 0 then crc <<< 1 ^^^ 0x31 else crc <<< 1

/-- One byte of {lit}`crc8`. -/
def crcByte (crc d : UInt8) : UInt8 :=
  crcBit (crcBit (crcBit (crcBit (crcBit (crcBit (crcBit (crcBit (crc ^^^ d))))))))

/-- {lit}`crc8` -/
def crc8 (bytes : List UInt8) : UInt8 :=
  bytes.foldl crcByte 0xFF

/-- The byte of an event, with the index in the low bits. -/
def EncoderEvent.byte (e : EncoderEvent) : UInt8 :=
  UInt8.ofNat (e.index.toNat + if e.clockwise then 0x80 else 0)

/-- The bytes of the queue in the shared memory. -/
def EncoderEvents.bytes (events : EncoderEvents n) : List UInt8 :=
  [events.enqueued, events.dequeued, UInt8.ofNat events.ring.head, UInt8.ofNat events.ring.tail] ++
    (List.ofFn events.ring.slots).map EncoderEvent.byte

/-- The checksum of a queue. -/
def EncoderEvents.crc (events : EncoderEvents n) : UInt8 :=
  crc8 events.bytes

/-! ## The two halves -/

/-- {lit}`split_shmem->encoders`, of which either half has its own. -/
structure Shmem (n : ℕ) where
  events : EncoderEvents n
  checksum : UInt8
deriving DecidableEq

/-- The next transaction of the master.  {lit}`data` carries the checksum that was read. -/
inductive Next
  | checksum
  | data (currChecksum : UInt8)
  | drain
deriving DecidableEq

/-- The slave, the master, and what was queued and delivered so far. -/
structure State (n : ℕ) where
  /-- {lit}`encoder_events` of the slave -/
  slaveEvents : EncoderEvents n
  signalQueueDrain : Bool
  slaveShmem : Shmem n
  masterShmem : Shmem n
  lastChecksum : UInt8
  next : Next
  /-- the events the slave has queued -/
  queued : List EncoderEvent
  /-- the events the master has enqueued for the slave -/
  delivered : List EncoderEvent

/-- The end of a transaction. -/
inductive Outcome
  | ok
  /-- the slave does not see it -/
  | failsBefore
  /-- the slave sees it, the master takes it for failed -/
  | failsAfter
deriving DecidableEq

/-- What happens next: the slave queues an event, acts on the drain signal, or updates the
shared memory, or the master executes its next transaction, with the time for a forced
synchronisation or not. -/
inductive Input
  | queue (e : EncoderEvent)
  | drainTask
  | snapshot
  | transaction (forced : Bool) (outcome : Outcome)

/-- {lit}`encoder_queue_event` on the slave -/
def queueEvent (e : EncoderEvent) (s : State n) : State n :=
  if s.slaveEvents.ring.IsFull then s
  else { s with slaveEvents := encoderQueueEvent e s.slaveEvents, queued := s.queued ++ [e] }

/-- The drain in {lit}`encoder_task`. -/
def drainTask (s : State n) : State n :=
  if s.signalQueueDrain then
    { s with signalQueueDrain := false, slaveEvents := encoderQueueDrain s.slaveEvents }
  else s

/-- {lit}`encoder_handlers_slave` -/
def encoderHandlersSlave (s : State n) : State n :=
  { s with slaveShmem := { events := s.slaveEvents, checksum := s.slaveEvents.crc } }

/-- The events of the copy are taken over, if the checksum is a new one. -/
def takeEvents (s : State n) : State n :=
  if s.lastChecksum ≠ s.masterShmem.checksum then
    let res := dequeueAll n s.masterShmem.events
    let s := { s with
      masterShmem := { s.masterShmem with events := res.2 }
      delivered := s.delivered ++ res.1 }
    if res.1 ≠ [] then { s with next := .drain }
    else { s with lastChecksum := s.masterShmem.checksum, next := .checksum }
  else { s with next := .checksum }

/-- {lit}`GET_ENCODERS_CHECKSUM` -/
def readChecksum (forced : Bool) (o : Outcome) (s : State n) : State n :=
  if o = .failsBefore then s
  else
    let s := { s with masterShmem := { s.masterShmem with checksum := s.slaveShmem.checksum } }
    if o = .failsAfter then s
    else if forced || s.masterShmem.checksum != s.masterShmem.events.crc then
      { s with next := .data s.masterShmem.checksum }
    else takeEvents s

/-- {lit}`GET_ENCODERS_DATA` -/
def readData (currChecksum : UInt8) (o : Outcome) (s : State n) : State n :=
  if o = .failsBefore then { s with next := .checksum }
  else
    let s := { s with masterShmem := { s.masterShmem with events := s.slaveShmem.events } }
    if o = .ok ∧ currChecksum = s.masterShmem.events.crc then takeEvents s
    else { s with next := .checksum }

/-- {lit}`CMD_ENCODER_DRAIN`, after which the checksum counts as the last one in any case -/
def execDrain (o : Outcome) (s : State n) : State n :=
  { s with
    signalQueueDrain := s.signalQueueDrain || o ≠ .failsBefore
    lastChecksum := s.masterShmem.checksum
    next := .checksum }

/-- The next transaction of {lit}`encoder_handlers_master`. -/
def transaction (forced : Bool) (o : Outcome) (s : State n) : State n :=
  match s.next with
  | .checksum => readChecksum forced o s
  | .data currChecksum => readData currChecksum o s
  | .drain => execDrain o s

/-- One step of either half. -/
def step (s : State n) : Input → State n
  | .queue e => queueEvent e s
  | .drainTask => drainTask s
  | .snapshot => encoderHandlersSlave s
  | .transaction forced o => transaction forced o s

/-- Both halves after the start, with the memory zeroed. -/
def initial (n : ℕ) [NeZero n] : State n :=
  let events : EncoderEvents n :=
    { enqueued := 0, dequeued := 0
      ring := { slots := fun _ => { index := 0, clockwise := false }, head := 0, tail := 0 } }
  { slaveEvents := events
    signalQueueDrain := false
    slaveShmem := { events := events, checksum := 0 }
    masterShmem := { events := events, checksum := 0 }
    lastChecksum := 0
    next := .checksum
    queued := []
    delivered := [] }

/-! ## What the queue functions do -/

theorem contents_queueEvent {e : EncoderEvent} {events : EncoderEvents n}
    (h : ¬ events.ring.IsFull) :
    (encoderQueueEvent e events).contents = events.contents ++ [e] := by
  rw [encoderQueueEvent, if_neg h]
  exact RingBuffer.contents_push _ e h

theorem contents_queueDrain (events : EncoderEvents n) :
    (encoderQueueDrain events).contents = [] :=
  RingBuffer.contents_clear _

/-- The loop takes the events in their order. -/
theorem dequeueAll_contents (fuel : ℕ) {events : EncoderEvents n}
    (hfuel : events.ring.length ≤ fuel) :
    (dequeueAll fuel events).1 = events.contents ∧ (dequeueAll fuel events).2.contents = [] := by
  induction fuel generalizing events with
  | zero =>
    have hempty : events.ring.contents = [] := by
      rw [RingBuffer.contents, Nat.le_zero.mp hfuel]
      rfl
    exact ⟨hempty.symm, hempty⟩
  | succ fuel ih =>
    rw [dequeueAll, encoderDequeueEvent]
    by_cases hempty : events.ring.IsEmpty
    · rw [if_pos hempty]
      have hnone := events.ring.contents_empty hempty
      exact ⟨hnone.symm, hnone⟩
    · rw [if_neg hempty]
      have hlength := events.ring.length_pop hempty
      have hrest := @ih { events with ring := events.ring.pop, dequeued := events.dequeued + 1 }
        (show events.ring.pop.length ≤ fuel by omega)
      refine ⟨?_, hrest.2⟩
      dsimp only
      rw [hrest.1]
      exact (events.ring.contents_pop hempty).symm

theorem dequeueAll_eq (events : EncoderEvents n) :
    (dequeueAll n events).1 = events.contents ∧ (dequeueAll n events).2.contents = [] :=
  dequeueAll_contents n (Nat.le_of_lt events.ring.length_lt)

end SplitEncoder
end VialQmk
