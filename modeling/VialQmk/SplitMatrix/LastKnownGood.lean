import VialQmk.Library.Runs
import VialQmk.SplitEncoder.Transactions

/-!
# Split matrix - the last known good one

The slave half copies its matrix into the shared memory, with a checksum.  The master reads
the checksum, and it reads the matrix if its own copy has another checksum or if it is time to
do so.  Between the two transactions the slave may have another matrix, and either transaction
may fail or leave anything in the master's copy.  A poll that fails is repeated as it is, so a
run is a sequence of polls.

Main results:

- Theorem {lit}`lastKnownGood`: the matrix that is handed out has the checksum that was read
  in the poll which accepted it, and no other poll changes it.
-/

namespace VialQmk
namespace SplitMatrix

open SplitEncoder (crc8)

variable {n : ℕ}

/-- {lit}`split_shmem->smatrix`, with the {lit}`n` bytes of the matrix of one half -/
structure Shmem (n : ℕ) where
  checksum : UInt8
  matrix : Fin n → UInt8
deriving DecidableEq

/-- The checksum of the bytes of a matrix. -/
def crcOf (matrix : Fin n → UInt8) : UInt8 :=
  crc8 (List.ofFn matrix)

/-- {lit}`FORCED_SYNC_THROTTLE_MS` -/
def forcedSyncThrottleMs : UInt32 :=
  100

/-- The next transaction of a poll.  The second one knows the checksum that was read. -/
inductive Next
  | checksum
  | data (currChecksum : UInt8)
deriving DecidableEq

/-- The shared memory of the halves, and the variables of
{lit}`slave_matrix_handlers_master`. -/
structure State (n : ℕ) where
  slaveShmem : Shmem n
  masterShmem : Shmem n
  lastUpdate : UInt32
  lastMatrix : Fin n → UInt8
  next : Next
  /-- the matrix that was handed out last -/
  slaveMatrix : Fin n → UInt8
  /-- for the statements: the checksum read in the poll that accepted it -/
  accepted : Option UInt8

/-- A transfer brings what the slave has, or it leaves anything in the copy of the master,
whether it fails or not. -/
inductive Transfer (n : ℕ)
  | good
  | bad (okay : Bool) (left : Shmem n)

/-- {lit}`transport_read` returns that all is well. -/
def Transfer.okay : Transfer n → Bool
  | good => true
  | bad okay _ => okay

/-- What happens next. -/
inductive Input (n : ℕ)
  /-- {lit}`slave_matrix_handlers_slave` -/
  | slaveUpdate (matrix : Fin n → UInt8)
  /-- the next transaction of the master, at some time -/
  | transaction (now : UInt32) (t : Transfer n)

namespace State

/-- {lit}`slave_matrix_handlers_slave` -/
def slaveMatrixHandlersSlave (matrix : Fin n → UInt8) (s : State n) : State n :=
  { s with slaveShmem := ⟨crcOf matrix, matrix⟩ }

/-- The master's copy after a transfer of the checksum. -/
def copyAfterChecksum (s : State n) : Transfer n → Shmem n
  | .good => { s.masterShmem with checksum := s.slaveShmem.checksum }
  | .bad _ left => left

/-- The master's copy after a transfer of the matrix. -/
def copyAfterData (s : State n) : Transfer n → Shmem n
  | .good => { s.masterShmem with matrix := s.slaveShmem.matrix }
  | .bad _ left => left

/-- The end of {lit}`slave_matrix_handlers_master`. -/
def finish (okay : Bool) (currChecksum : UInt8) (tempMatrix : Fin n → UInt8) (s : State n) :
    State n :=
  let s :=
    if okay then { s with lastMatrix := tempMatrix, accepted := some currChecksum } else s
  { s with slaveMatrix := s.lastMatrix, next := .checksum }

/-- {lit}`GET_SLAVE_MATRIX_CHECKSUM` in {lit}`read_if_checksum_mismatch` -/
def readChecksum (now : UInt32) (t : Transfer n) (s : State n) : State n :=
  let s := { s with masterShmem := s.copyAfterChecksum t }
  let currChecksum := s.masterShmem.checksum
  if t.okay ∧ (forcedSyncThrottleMs ≤ now - s.lastUpdate ∨
      currChecksum ≠ crcOf s.masterShmem.matrix) then
    { s with next := .data currChecksum }
  else s.finish t.okay currChecksum s.masterShmem.matrix

/-- {lit}`GET_SLAVE_MATRIX_DATA` in {lit}`read_if_checksum_mismatch`.  After a failure the
temporary matrix is not looked at. -/
def readData (now : UInt32) (currChecksum : UInt8) (t : Transfer n) (s : State n) : State n :=
  let s := { s with masterShmem := s.copyAfterData t }
  let okay := t.okay && currChecksum == crcOf s.masterShmem.matrix
  let s := if okay then { s with lastUpdate := now } else s
  s.finish okay currChecksum s.masterShmem.matrix

end State

/-- One step of either half. -/
def step (s : State n) : Input n → State n
  | .slaveUpdate matrix => s.slaveMatrixHandlersSlave matrix
  | .transaction now t =>
    match s.next with
    | .checksum => s.readChecksum now t
    | .data currChecksum => s.readData now currChecksum t

/-- All keys are up, and no poll has been made. -/
def initial (n : ℕ) : State n :=
  ⟨⟨0, fun _ => 0⟩, ⟨0, fun _ => 0⟩, 0, fun _ => 0, .checksum, fun _ => 0, none⟩

/-! ## What a step may do -/

/-- The step ends a poll in which every transaction has succeeded and the check has matched:
the copy had the checksum already and need not be read, or it has been read. -/
def Accepts (s : State n) : Input n → Prop
  | .slaveUpdate _ => False
  | .transaction now t => t.okay = true ∧
    match s.next with
    | .checksum => now - s.lastUpdate < forcedSyncThrottleMs ∧
        (s.copyAfterChecksum t).checksum = crcOf (s.copyAfterChecksum t).matrix
    | .data currChecksum => currChecksum = crcOf (s.copyAfterData t).matrix

/-- The checksum that has been read in the poll, at the end of the step. -/
def checksumRead (s : State n) : Input n → UInt8
  | .slaveUpdate _ => 0
  | .transaction _ t =>
    match s.next with
    | .checksum => (s.copyAfterChecksum t).checksum
    | .data currChecksum => currChecksum

/-- The matrix handed out is the last one, and it has the checksum of its poll. -/
structure Good (s : State n) : Prop where
  slaveMatrix : s.slaveMatrix = s.lastMatrix
  checksum : ∀ c ∈ s.accepted, crcOf s.slaveMatrix = c
  unread : s.accepted = none → s.slaveMatrix = fun _ => 0

/-- A step that does not accept leaves the matrix as it is; one that does hands out a matrix
with the checksum that has been read. -/
def Guarded (s : State n) (i : Input n) : Prop :=
  (¬ Accepts s i ∧ (step s i).slaveMatrix = s.slaveMatrix ∧ (step s i).accepted = s.accepted) ∨
    (Accepts s i ∧ crcOf (step s i).slaveMatrix = checksumRead s i ∧
      (step s i).accepted = some (checksumRead s i))

/-! ## One step -/

theorem finish_false (currChecksum : UInt8) (tempMatrix : Fin n → UInt8) (s : State n) :
    (s.finish false currChecksum tempMatrix).slaveMatrix = s.lastMatrix ∧
      (s.finish false currChecksum tempMatrix).accepted = s.accepted :=
  ⟨rfl, rfl⟩

theorem finish_true (currChecksum : UInt8) (tempMatrix : Fin n → UInt8) (s : State n) :
    (s.finish true currChecksum tempMatrix).slaveMatrix = tempMatrix ∧
      (s.finish true currChecksum tempMatrix).accepted = some currChecksum :=
  ⟨rfl, rfl⟩

/-- The first transaction accepts the copy if it has the checksum that has been read. -/
theorem readChecksum_guarded {s : State n} (hlast : s.slaveMatrix = s.lastMatrix)
    (hnext : s.next = .checksum) (now : UInt32) (t : Transfer n) :
    Guarded s (.transaction now t) := by
  have hstep : step s (.transaction now t) = s.readChecksum now t := by
    rw [step, hnext]
  have haccepts : Accepts s (.transaction now t) ↔ t.okay = true ∧
      now - s.lastUpdate < forcedSyncThrottleMs ∧
        (s.copyAfterChecksum t).checksum = crcOf (s.copyAfterChecksum t).matrix := by
    rw [Accepts, hnext]
  have hread : checksumRead s (.transaction now t) = (s.copyAfterChecksum t).checksum := by
    rw [checksumRead, hnext]
  rw [Guarded, hstep, haccepts, hread, State.readChecksum]
  dsimp only
  cases hokay : t.okay with
  | false =>
    -- the transaction has failed
    left
    rw [if_neg (by simp)]
    rcases finish_false (s.copyAfterChecksum t).checksum (s.copyAfterChecksum t).matrix
      { s with masterShmem := s.copyAfterChecksum t } with ⟨hmatrix, haccepted⟩
    exact ⟨by simp, hmatrix.trans hlast.symm, haccepted⟩
  | true =>
    by_cases hother : forcedSyncThrottleMs ≤ now - s.lastUpdate ∨
        (s.copyAfterChecksum t).checksum ≠ crcOf (s.copyAfterChecksum t).matrix
    · left
      rw [if_pos ⟨rfl, hother⟩]
      refine ⟨?_, rfl, rfl⟩
      rintro ⟨-, hlt, hsame⟩
      rcases hother with hforced | hother
      · exact absurd hlt (UInt32.not_lt.mpr hforced)
      · exact hother hsame
    · right
      rw [if_neg (by simpa using hother)]
      rw [not_or, not_not, UInt32.not_le] at hother
      rcases finish_true (s.copyAfterChecksum t).checksum (s.copyAfterChecksum t).matrix
        { s with masterShmem := s.copyAfterChecksum t } with ⟨hmatrix, haccepted⟩
      exact ⟨⟨rfl, hother⟩, by rw [hmatrix, hother.2], haccepted⟩

/-- The second transaction accepts what it has read if the checksum is the one before. -/
theorem readData_guarded {s : State n} (hlast : s.slaveMatrix = s.lastMatrix)
    {currChecksum : UInt8} (hnext : s.next = .data currChecksum) (now : UInt32) (t : Transfer n) :
    Guarded s (.transaction now t) := by
  have hstep : step s (.transaction now t) = s.readData now currChecksum t := by
    rw [step, hnext]
  have haccepts : Accepts s (.transaction now t) ↔ t.okay = true ∧
      currChecksum = crcOf (s.copyAfterData t).matrix := by
    rw [Accepts, hnext]
  have hread : checksumRead s (.transaction now t) = currChecksum := by
    rw [checksumRead, hnext]
  rw [Guarded, hstep, haccepts, hread, State.readData]
  dsimp only
  by_cases hokay : t.okay = true ∧ currChecksum = crcOf (s.copyAfterData t).matrix
  · right
    have htrue : (t.okay && currChecksum == crcOf (s.copyAfterData t).matrix) = true := by
      simpa using hokay
    rw [htrue, if_pos rfl]
    rcases finish_true currChecksum (s.copyAfterData t).matrix
      { s with masterShmem := s.copyAfterData t, lastUpdate := now } with ⟨hmatrix, haccepted⟩
    exact ⟨hokay, by rw [hmatrix]; exact hokay.2.symm, haccepted⟩
  · left
    have hfalse : (t.okay && currChecksum == crcOf (s.copyAfterData t).matrix) = false := by
      simpa using hokay
    rw [hfalse, if_neg nofun]
    rcases finish_false currChecksum (s.copyAfterData t).matrix
      { s with masterShmem := s.copyAfterData t } with ⟨hmatrix, haccepted⟩
    exact ⟨hokay, hmatrix.trans hlast.symm, haccepted⟩

theorem Good.guarded {s : State n} (h : Good s) (i : Input n) : Guarded s i := by
  cases i with
  | slaveUpdate matrix => exact Or.inl ⟨id, rfl, rfl⟩
  | transaction now t =>
    cases hnext : s.next with
    | checksum => exact readChecksum_guarded h.slaveMatrix hnext now t
    | data currChecksum => exact readData_guarded h.slaveMatrix hnext now t

/-- What is handed out at the end of a poll is the last matrix. -/
theorem step_slaveMatrix {s : State n} (h : s.slaveMatrix = s.lastMatrix) (i : Input n) :
    (step s i).slaveMatrix = (step s i).lastMatrix := by
  cases i with
  | slaveUpdate matrix => exact h
  | transaction now t =>
    rw [step]
    cases s.next with
    | checksum =>
      dsimp only
      rw [State.readChecksum]
      dsimp only
      split_ifs
      · exact h
      · rfl
    | data currChecksum => rfl

theorem Good.step {s : State n} (h : Good s) (i : Input n) : Good (step s i) := by
  refine ⟨step_slaveMatrix h.slaveMatrix i, ?_, ?_⟩
  · intro c hc
    rcases h.guarded i with ⟨-, hmatrix, haccepted⟩ | ⟨-, hchecksum, haccepted⟩
    · rw [haccepted] at hc
      rw [hmatrix]
      exact h.checksum c hc
    · rw [haccepted] at hc
      rw [hchecksum]
      exact Option.some.inj hc
  · intro hnone
    rcases h.guarded i with ⟨-, hmatrix, haccepted⟩ | ⟨-, -, haccepted⟩
    · rw [haccepted] at hnone
      rw [hmatrix]
      exact h.unread hnone
    · rw [haccepted] at hnone
      cases hnone

/-! ## Runs -/

/-- In any order of updates of the slave and transactions of the master, with any failures and
any bytes left by them, the matrix that is handed out is the one of the last accepted poll,
with the checksum that was read there, and every other poll leaves it as it is. -/
theorem lastKnownGood (n : ℕ) (inputs : List (Input n)) :
    Good (StateMachine.run step (initial n) inputs) ∧
      StateMachine.Along step Guarded (initial n) inputs := by
  have hstart : Good (initial n) := ⟨rfl, nofun, fun _ => rfl⟩
  have hall : StateMachine.Along step (fun _ _ => True) (initial n) inputs :=
    StateMachine.along_trivial _ _
  constructor
  · exact StateMachine.run_invariant Good (fun s i hs _ => hs.step i) hstart hall
  · exact StateMachine.along_of_invariant Good (fun s i hs _ => hs.step i)
      (fun s i hs _ => hs.guarded i) hstart hall

end SplitMatrix
end VialQmk
