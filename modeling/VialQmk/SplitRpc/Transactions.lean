import VialQmk.Library.Memory
import VialQmk.Library.Runs
import VialQmk.SplitEncoder.Transactions

/-!
# Split RPC - transactions

A call from the master half to the slave half is four transactions: the info block, the
request data, the execution and the response data.  Either half has its own table of
transactions and its own copy of the shared memory; the sizes of the two buffers in the
tables change with each call.

The transactions go over a serial line, where one transfer carries all of a transaction, or
over I2C, where the data, the callback and the answer are separate transfers.  The serial
drivers differ: on AVR the slave calls back before it receives, and the byte streams of ChibiOS
do not tell the master whether a slave with nothing to send has received.

Main results:

- Definition {lit}`transactionRpcExec`: a call, with the outcome of each transfer.
- Definitions {lit}`slaveRpcInfoCallback` and {lit}`slaveRpcExecCallback`: what the slave does.
- Definitions {lit}`react` and {lit}`softSerialTransaction`: a transaction over each driver.
-/

namespace VialQmk
namespace SplitRpc

open Function (update)
open SplitEncoder (crc8)

/-! ## The table -/

/-- The values of {lit}`slave_callback`: those of the info block and the execution, those of
other transactions, and those registered for calls. -/
inductive Callback
  | rpcInfo
  | rpcExec
  | core
  | registered
deriving DecidableEq

/-- {lit}`split_transaction_desc_t` -/
structure TransactionDesc where
  initiator2targetBufferSize : UInt8
  initiator2targetOffset : ℕ
  target2initiatorBufferSize : UInt8
  target2initiatorOffset : ℕ
  slaveCallback : Option Callback

/-- The drivers for the line between the halves. -/
inductive Transport
  /-- {lit}`USE_I2C` -/
  | i2c
  /-- the bit-banged line of AVR, with an interrupt on the slave -/
  | avrSerial
  /-- the bit-banged line of ChibiOS, where the slave ends each transaction with a checksum -/
  | chibiosSerial
  /-- the byte streams of ChibiOS, where the slave answers the id of a transaction only -/
  | serialProtocol
deriving DecidableEq

/-- The ids of a build and the places of its shared memory. -/
structure Layout where
  transport : Transport
  putRpcInfo : ℕ
  numTotalTransactions : ℕ
  rpcInfoOffset : ℕ
  rpcM2sBufferSize : ℕ
  rpcS2mBufferSize : ℕ
  /-- The entries that are not about calls. -/
  otherTransactions : ℕ → TransactionDesc
  ids : putRpcInfo + 3 < numTotalTransactions
  fiveBits : numTotalTransactions ≤ 32
  /-- The first byte is the one for I2C callbacks, or a part of the matrix. -/
  offset_pos : 0 < rpcInfoOffset

namespace Layout

variable (l : Layout)

/-- {lit}`PUT_RPC_REQ_DATA` -/
def putRpcReqData : ℕ :=
  l.putRpcInfo + 1

/-- {lit}`EXECUTE_RPC` -/
def executeRpc : ℕ :=
  l.putRpcInfo + 2

/-- {lit}`GET_RPC_RESP_DATA` -/
def getRpcRespData : ℕ :=
  l.putRpcInfo + 3

/-- {lit}`rpc_m2s_buffer`, after the four bytes of {lit}`rpc_info` -/
def rpcM2sBuffer : ℕ :=
  l.rpcInfoOffset + 4

/-- {lit}`rpc_s2m_buffer` -/
def rpcS2mBuffer : ℕ :=
  l.rpcM2sBuffer + l.rpcM2sBufferSize

/-- {lit}`split_transaction_table` at the start -/
def transactionTable (id : ℕ) : TransactionDesc :=
  if id = l.putRpcInfo then ⟨4, l.rpcInfoOffset, 0, 0, some .rpcInfo⟩
  else if id = l.putRpcReqData then
    ⟨UInt8.ofNat l.rpcM2sBufferSize, l.rpcM2sBuffer, 0, 0, none⟩
  else if id = l.executeRpc then ⟨1, l.rpcInfoOffset + 1, 0, 0, some .rpcExec⟩
  else if id = l.getRpcRespData then
    ⟨0, 0, UInt8.ofNat l.rpcS2mBufferSize, l.rpcS2mBuffer, none⟩
  else l.otherTransactions id

end Layout

/-- A byte as a signed number. -/
def signed (byte : UInt8) : ℤ :=
  if byte < 128 then byte.toNat else (byte.toNat : ℤ) - 256

/-! ## The slave -/

/-- A callback has run. -/
structure Invocation where
  id : ℕ
  m2sLength : UInt8
  request : List UInt8
  s2mLength : UInt8
  /-- what is in the response buffer then -/
  response : List UInt8
deriving DecidableEq

/-- What the callbacks of calls write into the response buffer, after the calls so far. -/
abbrev Callbacks :=
  ℕ → List Invocation → List UInt8 → UInt8 → List UInt8

/-- The table and the shared memory of a half, and what its callbacks have done. -/
structure Half where
  table : ℕ → TransactionDesc
  shmem : Memory UInt8
  invocations : List Invocation
  /-- where {lit}`slave_rpc_exec_callback` has looked into the table -/
  indexed : List ℤ

/-- A half after the start. -/
def Layout.start (l : Layout) : Half :=
  ⟨l.transactionTable, fun _ => 0, [], []⟩

variable (l : Layout) (callbacks : Callbacks)

namespace Half

/-- {lit}`transaction_register_rpc` -/
def transactionRegisterRpc (id : ℤ) (h : Half) : Half :=
  if id ≤ l.getRpcRespData then h
  else
    { h with
      table := update h.table id.toNat
        { h.table id.toNat with
          slaveCallback := some .registered
          initiator2targetOffset := l.rpcM2sBuffer
          target2initiatorOffset := l.rpcS2mBuffer } }

/-- The sizes of the buffers for requests and responses. -/
def setSizes (m2s s2m : UInt8) (h : Half) : Half :=
  { h with
    table :=
      update
        (update h.table l.putRpcReqData
          { h.table l.putRpcReqData with initiator2targetBufferSize := m2s })
        l.getRpcRespData
        { h.table l.getRpcRespData with target2initiatorBufferSize := s2m } }

/-- {lit}`rpc_info.payload.m2s_length` -/
def m2sLength (h : Half) : UInt8 :=
  h.shmem (l.rpcInfoOffset + 2)

/-- {lit}`rpc_info.payload.s2m_length` -/
def s2mLength (h : Half) : UInt8 :=
  h.shmem (l.rpcInfoOffset + 3)

/-- {lit}`rpc_info.payload.transaction_id` -/
def transactionId (h : Half) : ℤ :=
  signed (h.shmem (l.rpcInfoOffset + 1))

/-- {lit}`slave_rpc_info_callback` -/
def slaveRpcInfoCallback (h : Half) : Half :=
  h.setSizes l (h.m2sLength l) (h.s2mLength l)

/-- A registered callback, between the two buffers. -/
def runRegistered (id : ℕ) (h : Half) : Half :=
  let request := h.shmem.load l.rpcM2sBuffer (h.m2sLength l).toNat
  let answer := callbacks id h.invocations request (h.s2mLength l)
  let shmem := h.shmem.store l.rpcS2mBuffer (answer.take (h.s2mLength l).toNat)
  { h with
    shmem := shmem
    invocations := h.invocations ++ [⟨id, h.m2sLength l, request, h.s2mLength l,
      shmem.load l.rpcS2mBuffer (h.s2mLength l).toNat⟩] }

/-- A callback that is no registered one is told about the two buffers. -/
def runOther (id : ℕ) (h : Half) : Half :=
  { h with
    invocations := h.invocations ++ [⟨id, h.m2sLength l,
      h.shmem.load l.rpcM2sBuffer (h.m2sLength l).toNat, h.s2mLength l,
      h.shmem.load l.rpcS2mBuffer (h.s2mLength l).toNat⟩] }

/-- {lit}`slave_rpc_exec_callback`.  What lies before the table is not known, and an
execution of the execution would not return: only that they happen is recorded. -/
def slaveRpcExecCallback (h : Half) : Half :=
  if crc8 (h.shmem.load (l.rpcInfoOffset + 1) 3) ≠ h.shmem l.rpcInfoOffset then h
  else
    let id := h.transactionId l
    if id < l.numTotalTransactions then
      let h := { h with indexed := h.indexed ++ [id] }
      if id < 0 then h
      else
        match (h.table id.toNat).slaveCallback with
        | none => h
        | some .registered => h.runRegistered l callbacks id.toNat
        | some .rpcInfo => (h.runOther l id.toNat).slaveRpcInfoCallback l
        | some _ => h.runOther l id.toNat
    else h

/-- The callback of a transaction.  Those of other transactions leave the calls alone. -/
def runCallback (id : ℕ) (h : Half) : Half :=
  match (h.table id).slaveCallback with
  | some .rpcInfo => h.slaveRpcInfoCallback l
  | some .rpcExec => h.slaveRpcExecCallback l callbacks
  | _ => h

/-- The bytes of a transaction come to the slave.  On a serial line it takes as many as it waits
for.  Over I2C the master writes all of them, and the id of a transaction with a callback to the
first byte. -/
def arrive (id : ℕ) (bytes : List UInt8) (h : Half) : Half :=
  let d := h.table id
  match l.transport with
  | .i2c =>
    let shmem := h.shmem.store d.initiator2targetOffset bytes
    if d.slaveCallback = none then { h with shmem := shmem }
    else { h with shmem := shmem.store 0 [UInt8.ofNat id] }
  | _ =>
    let got := bytes.take d.initiator2targetBufferSize.toNat
    { h with shmem := h.shmem.store d.initiator2targetOffset got }

/-- The bytes that the slave sends back. -/
def answer (id : ℕ) (h : Half) : List UInt8 :=
  let d := h.table id
  h.shmem.load d.target2initiatorOffset d.target2initiatorBufferSize.toNat

/-- The slave's side of a transaction.  The interrupt of AVR calls back and answers before it
receives; {lit}`react_to_transaction` and the others receive, call back and answer. -/
def react (id : ℕ) (bytes : List UInt8) (h : Half) : Half × List UInt8 :=
  match l.transport with
  | .avrSerial =>
    let h := h.runCallback l callbacks id
    (h.arrive l id bytes, h.answer id)
  | _ =>
    let h := (h.arrive l id bytes).runCallback l callbacks id
    (h, h.answer id)

end Half

/-! ## Transport -/

/-- The two halves. -/
structure State where
  master : Half
  slave : Half

/-- The end of a transfer.  One that fails may leave a part of its bytes behind. -/
inductive Outcome
  | ok
  /-- the other half does not process it -/
  | lost (left : List UInt8)
  /-- the other half processes it, the master takes it for failed.  On AVR the slave then
  receives what is on the line. -/
  | unanswered (left back : List UInt8)
  /-- the slave has answered the id, and does not get the bytes -/
  | missed (left : List UInt8)
deriving DecidableEq

/-- The outcomes of a transaction.  On a serial line there is one transfer, and what comes of
one whose sides differ in their sizes depends on the timing of the line. -/
structure Outcomes where
  write : Outcome
  trigger : Outcome
  read : Outcome
  astray : State → State × Bool

namespace State

/-- A part of the bytes has come to a buffer. -/
def leave (offset : ℕ) (size : UInt8) (left : List UInt8) (h : Half) : Half :=
  { h with shmem := h.shmem.store offset (left.take size.toNat) }

/-- The two sides of a transaction have the same sizes. -/
def SameSizes (id : ℕ) (s : State) : Prop :=
  (s.master.table id).initiator2targetBufferSize = (s.slave.table id).initiator2targetBufferSize ∧
    (s.master.table id).target2initiatorBufferSize = (s.slave.table id).target2initiatorBufferSize
deriving Decidable

/-- {lit}`soft_serial_transaction`.  With the byte streams the master has nothing to wait for when
the slave does not send, so it takes a transaction that is missed then for a success. -/
def softSerialTransaction (o : Outcomes) (id : ℕ) (s : State) : State × Bool :=
  let d := s.master.table id
  let d' := s.slave.table id
  let sent := s.master.shmem.load d.initiator2targetOffset d.initiator2targetBufferSize.toNat
  let partly := leave d'.initiator2targetOffset d'.initiator2targetBufferSize
  match o.write with
  | .lost left => (⟨s.master, partly left s.slave⟩, false)
  | .missed left =>
    (⟨s.master, partly left s.slave⟩,
      l.transport = .serialProtocol ∧ d.target2initiatorBufferSize = 0)
  | .unanswered left back =>
    if s.SameSizes id then
      let slave :=
        if l.transport = .avrSerial then partly left (s.slave.runCallback l callbacks id)
        else (s.slave.react l callbacks id sent).1
      (⟨leave d.target2initiatorOffset d.target2initiatorBufferSize back s.master, slave⟩, false)
    else o.astray s
  | .ok =>
    if s.SameSizes id then
      let r := s.slave.react l callbacks id sent
      (⟨{ s.master with shmem := s.master.shmem.store d.target2initiatorOffset r.2 }, r.1⟩, true)
    else o.astray s

/-- {lit}`i2c_write_register` to the registers of the slave, which are its shared memory -/
def i2cWriteRegister (o : Outcome) (offset : ℕ) (bytes : List UInt8) (s : State) : State × Bool :=
  match o with
  | .lost left | .missed left =>
    ({ s with slave := { s.slave with
        shmem := s.slave.shmem.store offset (left.take bytes.length) } }, false)
  | .unanswered _ _ =>
    ({ s with slave := { s.slave with shmem := s.slave.shmem.store offset bytes } }, false)
  | .ok => ({ s with slave := { s.slave with shmem := s.slave.shmem.store offset bytes } }, true)

/-- {lit}`transport_trigger_callback`: the slave runs the callback when the id comes to its
first register. -/
def transportTriggerCallback (o : Outcome) (id : ℕ) (s : State) : State × Bool :=
  if (s.master.table id).slaveCallback = none then (s, true)
  else
    let master := { s.master with shmem := s.master.shmem.store 0 [UInt8.ofNat id] }
    let slave : Half := { s.slave with shmem := s.slave.shmem.store 0 [UInt8.ofNat id] }
    match o with
    | .lost _ | .missed _ => (⟨master, s.slave⟩, false)
    | .unanswered _ _ => (⟨master, slave.runCallback l callbacks id⟩, false)
    | .ok => (⟨master, slave.runCallback l callbacks id⟩, true)

/-- {lit}`i2c_read_register` -/
def i2cReadRegister (o : Outcome) (offset len : ℕ) (s : State) : State × Bool :=
  match o with
  | .ok =>
    ({ s with master := { s.master with
        shmem := s.master.shmem.store offset (s.slave.shmem.load offset len) } }, true)
  | .lost left | .missed left | .unanswered _ left =>
    ({ s with master := { s.master with
        shmem := s.master.shmem.store offset (left.take len) } }, false)

/-- {lit}`transport_execute_transaction`, with the bytes to send and the number of bytes to
receive.  The last component is what is copied to the caller. -/
def transportExecuteTransaction (o : Outcomes) (id : ℕ) (bytes : List UInt8) (length : ℕ)
    (s : State) : State × Bool × List UInt8 :=
  let d := s.master.table id
  let sendLen := min d.initiator2targetBufferSize.toNat bytes.length
  let receiveLen := min d.target2initiatorBufferSize.toNat length
  let copied : State := { s with master := { s.master with
    shmem := s.master.shmem.store d.initiator2targetOffset (bytes.take sendLen) } }
  if l.transport = .i2c then
    let res :=
      if bytes = [] then (s, true)
      else copied.i2cWriteRegister o.write d.initiator2targetOffset
        (copied.master.shmem.load d.initiator2targetOffset sendLen)
    if !res.2 then (res.1, false, [])
    else
      let res := res.1.transportTriggerCallback l callbacks o.trigger id
      if !res.2 then (res.1, false, [])
      else if length = 0 then (res.1, true, [])
      else
        let res := res.1.i2cReadRegister o.read d.target2initiatorOffset receiveLen
        if !res.2 then (res.1, false, [])
        else (res.1, true, res.1.master.shmem.load d.target2initiatorOffset receiveLen)
  else
    let res := softSerialTransaction l callbacks o id copied
    if !res.2 then (res.1, false, [])
    else (res.1, true, res.1.master.shmem.load d.target2initiatorOffset receiveLen)

end State

/-! ## Calls -/

/-- The arguments of {lit}`transaction_rpc_exec`. -/
structure Call where
  transactionId : ℤ
  m2sLength : UInt8
  request : List UInt8
  s2mLength : UInt8
  length_request : request.length = m2sLength.toNat

/-- What is sent as {lit}`rpc_info`: the checksum, the id and the lengths. -/
def Call.info (c : Call) : List UInt8 :=
  let payload := [UInt8.ofInt c.transactionId, c.m2sLength, c.s2mLength]
  crc8 payload :: payload

/-- The outcomes of the four transactions of a call. -/
structure CallOutcomes where
  connected : Bool
  info : Outcomes
  request : Outcomes
  execute : Outcomes
  response : Outcomes

/-- {lit}`transaction_rpc_exec`, with what it returns and what it copies to the caller -/
def transactionRpcExec (c : Call) (o : CallOutcomes) (s : State) : State × Bool × List UInt8 :=
  if !o.connected then (s, false, [])
  else if c.transactionId ≤ l.getRpcRespData then (s, false, [])
  else if l.rpcM2sBufferSize < c.m2sLength.toNat then (s, false, [])
  else if l.rpcS2mBufferSize < c.s2mLength.toNat then (s, false, [])
  else
    let s := { s with master := s.master.setSizes l c.m2sLength c.s2mLength }
    let info := s.transportExecuteTransaction l callbacks o.info l.putRpcInfo c.info 0
    if !info.2.1 then (info.1, false, [])
    else
      let request := info.1.transportExecuteTransaction l callbacks o.request l.putRpcReqData
        c.request 0
      if !request.2.1 then (request.1, false, [])
      else
        let execute := request.1.transportExecuteTransaction l callbacks o.execute l.executeRpc
          [UInt8.ofInt c.transactionId] 0
        if !execute.2.1 then (execute.1, false, [])
        else
          execute.1.transportExecuteTransaction l callbacks o.response l.getRpcRespData []
            c.s2mLength.toNat

/-! ## What stays in the table -/

section Wiring

variable {l : Layout} {callbacks : Callbacks} {h : Half}

/-- The entries for calls, but for the sizes of the two buffers. -/
structure Half.Wired (l : Layout) (h : Half) : Prop where
  info : h.table l.putRpcInfo = ⟨4, l.rpcInfoOffset, 0, 0, some .rpcInfo⟩
  request : ∃ size, h.table l.putRpcReqData = ⟨size, l.rpcM2sBuffer, 0, 0, none⟩
  execute : h.table l.executeRpc = ⟨1, l.rpcInfoOffset + 1, 0, 0, some .rpcExec⟩
  response : ∃ size, h.table l.getRpcRespData = ⟨0, 0, size, l.rpcS2mBuffer, none⟩

theorem Layout.start_request (l : Layout) : l.start.table l.putRpcReqData =
    ⟨UInt8.ofNat l.rpcM2sBufferSize, l.rpcM2sBuffer, 0, 0, none⟩ := by
  simp [start, transactionTable, putRpcReqData]

theorem Layout.start_response (l : Layout) : l.start.table l.getRpcRespData =
    ⟨0, 0, UInt8.ofNat l.rpcS2mBufferSize, l.rpcS2mBuffer, none⟩ := by
  simp [start, transactionTable, putRpcReqData, executeRpc, getRpcRespData]

theorem Layout.wired_start (l : Layout) : l.start.Wired l := by
  constructor
  · simp [start, transactionTable]
  · exact ⟨_, l.start_request⟩
  · simp [start, transactionTable, putRpcReqData, executeRpc]
  · exact ⟨_, l.start_response⟩

theorem Half.setSizes_request (m2s s2m : UInt8) (h : Half) :
    (h.setSizes l m2s s2m).table l.putRpcReqData =
      { h.table l.putRpcReqData with initiator2targetBufferSize := m2s } := by
  have hne : l.putRpcReqData ≠ l.getRpcRespData := by
    simp [Layout.putRpcReqData, Layout.getRpcRespData]
  rw [setSizes]
  dsimp only
  rw [Function.update_of_ne hne, Function.update_self]

theorem Half.setSizes_response (m2s s2m : UInt8) (h : Half) :
    (h.setSizes l m2s s2m).table l.getRpcRespData =
      { h.table l.getRpcRespData with target2initiatorBufferSize := s2m } := by
  rw [setSizes]
  dsimp only
  rw [Function.update_self]

theorem Half.setSizes_of_ne {id : ℕ} (hrequest : id ≠ l.putRpcReqData)
    (hresponse : id ≠ l.getRpcRespData) (m2s s2m : UInt8) (h : Half) :
    (h.setSizes l m2s s2m).table id = h.table id := by
  rw [setSizes]
  dsimp only
  rw [Function.update_of_ne hresponse, Function.update_of_ne hrequest]

theorem Half.Wired.setSizes (hw : h.Wired l) (m2s s2m : UInt8) :
    (h.setSizes l m2s s2m).Wired l := by
  constructor
  · rw [setSizes_of_ne (by simp [Layout.putRpcReqData]) (by simp [Layout.getRpcRespData])]
    exact hw.info
  · rcases hw.request with ⟨size, hrequest⟩
    exact ⟨m2s, by rw [setSizes_request, hrequest]⟩
  · rw [setSizes_of_ne (by simp [Layout.executeRpc, Layout.putRpcReqData])
      (by simp [Layout.executeRpc, Layout.getRpcRespData])]
    exact hw.execute
  · rcases hw.response with ⟨size, hresponse⟩
    exact ⟨s2m, by rw [setSizes_response, hresponse]⟩

/-- The wiring is about the table alone. -/
theorem Half.Wired.of_table {h' : Half} (hw : h.Wired l) (htable : h'.table = h.table) :
    h'.Wired l :=
  ⟨htable ▸ hw.info, htable ▸ hw.request, htable ▸ hw.execute, htable ▸ hw.response⟩

/-- A registration is for an id after those of the calls. -/
theorem Half.Wired.register (hw : h.Wired l) (id : ℤ) :
    (h.transactionRegisterRpc l id).Wired l := by
  rw [transactionRegisterRpc]
  split_ifs with hid
  · exact hw
  · have hother : ∀ i ≤ l.getRpcRespData, i ≠ id.toNat := by omega
    have hlast : l.putRpcInfo + 3 = l.getRpcRespData := rfl
    constructor <;> dsimp only
    · rw [Function.update_of_ne (hother _ (by omega))]
      exact hw.info
    · rw [Function.update_of_ne (hother _ (by rw [Layout.putRpcReqData]; omega))]
      exact hw.request
    · rw [Function.update_of_ne (hother _ (by rw [Layout.executeRpc]; omega))]
      exact hw.execute
    · rw [Function.update_of_ne (hother _ (Nat.le_refl _))]
      exact hw.response

end Wiring

/-! ## What comes to the slave -/

section Deliveries

variable {l : Layout}

/-- The slave has received the bytes of a transaction, and nothing else has changed behind the
first byte of its memory. -/
structure Delivered (offset : ℕ) (bytes : List UInt8) (shmem shmem' : Memory UInt8) : Prop where
  load : shmem'.load offset bytes.length = bytes
  frame : ∀ i, 0 < i → i < offset ∨ offset + bytes.length ≤ i → shmem' i = shmem i

theorem delivered_store (offset : ℕ) (bytes : List UInt8) (shmem : Memory UInt8) :
    Delivered offset bytes shmem (shmem.store offset bytes) := by
  constructor
  · exact Memory.load_store_same _ _ _
  · intro i _ hi
    rcases hi with hi | hi
    · exact Memory.store_of_lt hi
    · exact Memory.store_of_ge hi

/-- The id for the callback comes to the first byte. -/
theorem Delivered.trigger {offset : ℕ} {bytes : List UInt8} {shmem shmem' : Memory UInt8}
    (h : Delivered offset bytes shmem shmem') (hoffset : 0 < offset) (id : UInt8) :
    Delivered offset bytes shmem (shmem'.store 0 [id]) := by
  have hbehind : ∀ i, 0 < i → shmem'.store 0 [id] i = shmem' i := fun i hi =>
    Memory.store_of_ge (by rw [List.length_singleton]; omega)
  constructor
  · rw [← h.load, h.load]
    rw [Memory.load_congr fun i hle _ => hbehind i (by omega)]
    exact h.load
  · intro i hi hout
    rw [hbehind i hi, h.frame i hi hout]

/-- All the bytes of a transaction arrive. -/
theorem Half.arrive_delivered (h : Half) {id : ℕ} (bytes : List UInt8) {d : TransactionDesc}
    (htable : h.table id = d) (hsize : bytes.length ≤ d.initiator2targetBufferSize.toNat)
    (hoffset : 0 < d.initiator2targetOffset) :
    ∃ shmem, h.arrive l id bytes = { h with shmem := shmem } ∧
      Delivered d.initiator2targetOffset bytes h.shmem shmem := by
  have hstore := delivered_store d.initiator2targetOffset bytes h.shmem
  rw [arrive, htable, List.take_of_length_le hsize]
  cases l.transport with
  | i2c =>
    by_cases hcallback : d.slaveCallback = none
    · exact ⟨_, if_pos hcallback, hstore⟩
    · exact ⟨_, if_neg hcallback, hstore.trigger hoffset (UInt8.ofNat id)⟩
  | avrSerial => exact ⟨_, rfl, hstore⟩
  | chibiosSerial => exact ⟨_, rfl, hstore⟩
  | serialProtocol => exact ⟨_, rfl, hstore⟩

/-- Whatever arrives, the memory alone changes, and not in front of the buffer. -/
theorem Half.arrive_shmem (h : Half) {id : ℕ} {d : TransactionDesc} (htable : h.table id = d)
    (bytes : List UInt8) :
    ∃ shmem, h.arrive l id bytes = { h with shmem := shmem } ∧
      ∀ i, 0 < i → i < d.initiator2targetOffset → shmem i = h.shmem i := by
  have hfront : ∀ (got : List UInt8) (i : ℕ), 0 < i → i < d.initiator2targetOffset →
      h.shmem.store d.initiator2targetOffset got i = h.shmem i :=
    fun got i _ hi => Memory.store_of_lt hi
  rw [arrive, htable]
  cases l.transport with
  | i2c =>
    by_cases hcallback : d.slaveCallback = none
    · exact ⟨_, if_pos hcallback, hfront bytes⟩
    · refine ⟨_, if_neg hcallback, fun i hpos hi => ?_⟩
      rw [Memory.store_of_ge (by rw [List.length_singleton]; omega)]
      exact hfront bytes i hpos hi
  | avrSerial => exact ⟨_, rfl, hfront _⟩
  | chibiosSerial => exact ⟨_, rfl, hfront _⟩
  | serialProtocol => exact ⟨_, rfl, hfront _⟩

variable {callbacks : Callbacks}

/-- The slave of AVR calls back first. -/
theorem Half.react_avr (h : Half) (htransport : l.transport = .avrSerial) (id : ℕ)
    (bytes : List UInt8) :
    h.react l callbacks id bytes =
      ((h.runCallback l callbacks id).arrive l id bytes,
        (h.runCallback l callbacks id).answer id) := by
  rw [react, htransport]

/-- The others receive first. -/
theorem Half.react_other (h : Half) (htransport : l.transport ≠ .avrSerial) (id : ℕ)
    (bytes : List UInt8) :
    h.react l callbacks id bytes =
      ((h.arrive l id bytes).runCallback l callbacks id,
        ((h.arrive l id bytes).runCallback l callbacks id).answer id) := by
  rw [react]
  cases hcase : l.transport with
  | avrSerial => exact absurd hcase htransport
  | i2c => rfl
  | chibiosSerial => rfl
  | serialProtocol => rfl

end Deliveries

end SplitRpc
end VialQmk
