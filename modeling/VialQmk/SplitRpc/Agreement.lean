import VialQmk.SplitRpc.Confinement

/-!
# Split RPC - agreement of the halves

A call of the master gives up as soon as one of its transactions fails.  The execution comes
after the info block and the request data of the same call, so that the slave finds them in
its shared memory, whatever has been left there by earlier calls.  That is not so when a
transaction that the slave has missed counts as a success, or when the callback of the info
block runs before the block comes.

Main results:

- Definition {lit}`Sound`: the condition on a call.
- Theorem {lit}`rpc_agrees`: a callback runs at most once for each call, with the request and
  the lengths of that call, and exactly once if the call succeeds, with its response.
- Theorem {lit}`not_agrees_missed`: a call whose execution is missed succeeds.
-/

namespace VialQmk
namespace SplitRpc

open SplitEncoder (crc8)

variable {l : Layout} {callbacks : Callbacks} {s : State}

/-! ## The condition -/

/-- As long as the transactions go well none is missed. -/
def Noticed : List Outcomes → Prop
  | [] => True
  | o :: os => (∀ left, o.write ≠ .missed left) ∧ (o.write = .ok → Noticed os)

/-- The master does not refuse the call. -/
structure Accepted (l : Layout) (c : Call) (o : CallOutcomes) : Prop where
  connected : o.connected = true
  transactionId : l.getRpcRespData < c.transactionId
  m2sLength : c.m2sLength.toNat ≤ l.rpcM2sBufferSize
  s2mLength : c.s2mLength.toNat ≤ l.rpcS2mBufferSize

/-- With the byte streams no transaction that sends is missed.  On AVR the slave has the two
lengths from the call before, if the info block comes. -/
def Sound (l : Layout) (c : Call) (o : CallOutcomes) (s : State) : Prop :=
  Accepted l c o →
    match l.transport with
    | .i2c | .chibiosSerial => True
    | .avrSerial => o.info.write = .ok →
        s.slave.m2sLength l = c.m2sLength ∧ s.slave.s2mLength l = c.s2mLength
    | .serialProtocol => Noticed [o.info, o.request, o.execute]

/-! ## Transactions that send -/

/-- What may come of a transaction that sends.  It fails before the callback, or the slave has
the bytes and runs the callback.  On AVR it has run the callback, and has the bytes if the
transaction succeeds. -/
inductive Sent (l : Layout) (callbacks : Callbacks) (id offset : ℕ) (bytes : List UInt8)
    (slave : Half) : Half → Bool → Prop
  | failed (shmem : Memory UInt8) :
    Sent l callbacks id offset bytes slave { slave with shmem := shmem } false
  | reacted (shmem : Memory UInt8) (hdelivered : Delivered offset bytes slave.shmem shmem)
    (htransport : l.transport ≠ .avrSerial) (ok : Bool) :
    Sent l callbacks id offset bytes slave
      (Half.runCallback l callbacks id { slave with shmem := shmem }) ok
  | calledBack (shmem : Memory UInt8) (ok : Bool) (htransport : l.transport = .avrSerial)
    (hdelivered : ok = true →
      Delivered offset bytes (slave.runCallback l callbacks id).shmem shmem) :
    Sent l callbacks id offset bytes slave
      { slave.runCallback l callbacks id with shmem := shmem } ok

/-- A serial line: what the master takes for a success is one, unless it has been missed. -/
theorem softSerialTransaction_send (o : Outcomes) {id : ℕ} {bytes : List UInt8}
    {d : TransactionDesc} (hmaster : s.master.table id = d) (hslave : s.slave.table id = d)
    (hsize : bytes.length = d.initiator2targetBufferSize.toNat)
    (hoffset : 0 < d.initiator2targetOffset)
    (hload : s.master.shmem.load d.initiator2targetOffset bytes.length = bytes)
    (hkeep : (s.slave.runCallback l callbacks id).table id = d)
    (hnoticed : l.transport = .serialProtocol → ∀ left, o.write ≠ .missed left) :
    (s.softSerialTransaction l callbacks o id).1.master.table = s.master.table ∧
      Sent l callbacks id d.initiator2targetOffset bytes s.slave
        (s.softSerialTransaction l callbacks o id).1.slave
        (s.softSerialTransaction l callbacks o id).2 ∧
      ((s.softSerialTransaction l callbacks o id).2 = true → o.write = .ok) := by
  have hsame : s.SameSizes id := by
    rw [State.SameSizes, hmaster, hslave]
    exact ⟨rfl, rfl⟩
  have hreacted : ∀ ok, Sent l callbacks id d.initiator2targetOffset bytes s.slave
      (s.slave.react l callbacks id bytes).1 ok := by
    intro ok
    by_cases havr : l.transport = .avrSerial
    · rcases Half.arrive_delivered (l := l) (s.slave.runCallback l callbacks id) bytes
        hkeep (Nat.le_of_eq hsize) hoffset with ⟨shmem, harrive, hdelivered⟩
      rw [Half.react_avr _ havr]
      dsimp only
      rw [harrive]
      exact .calledBack shmem ok havr fun _ => hdelivered
    · rcases Half.arrive_delivered (l := l) s.slave bytes hslave (Nat.le_of_eq hsize)
        hoffset with ⟨shmem, harrive, hdelivered⟩
      rw [Half.react_other _ havr]
      dsimp only
      rw [harrive]
      exact .reacted shmem hdelivered havr ok
  rw [State.softSerialTransaction, hmaster]
  dsimp only
  rw [← hsize, hload]
  cases hwrite : o.write with
  | ok =>
    dsimp only
    rw [if_pos hsame]
    exact ⟨rfl, hreacted true, fun _ => rfl⟩
  | lost left =>
    exact ⟨rfl, .failed _, fun hok => absurd hok Bool.false_ne_true⟩
  | missed left =>
    have hfailed : decide (l.transport = .serialProtocol ∧ d.target2initiatorBufferSize = 0) =
        false := decide_eq_false fun h => hnoticed h.1 left hwrite
    dsimp only
    rw [hfailed]
    exact ⟨rfl, .failed _, fun hok => absurd hok Bool.false_ne_true⟩
  | unanswered left back =>
    dsimp only
    rw [if_pos hsame]
    refine ⟨rfl, ?_, fun hok => absurd hok Bool.false_ne_true⟩
    dsimp only
    by_cases havr : l.transport = .avrSerial
    · rw [if_pos havr]
      exact .calledBack _ false havr fun hok => absurd hok Bool.false_ne_true
    · rw [if_neg havr]
      exact hreacted false

theorem i2cWriteRegister_send (o : Outcome) (offset : ℕ) (bytes : List UInt8) (s : State) :
    (s.i2cWriteRegister o offset bytes).1.master = s.master ∧
      ((s.i2cWriteRegister o offset bytes).2 = false ∨
        Delivered offset bytes s.slave.shmem (s.i2cWriteRegister o offset bytes).1.slave.shmem) ∧
      ∃ shmem, (s.i2cWriteRegister o offset bytes).1.slave = { s.slave with shmem := shmem } := by
  have hdelivered := delivered_store offset bytes s.slave.shmem
  cases o with
  | ok => exact ⟨rfl, Or.inr hdelivered, _, rfl⟩
  | lost left => exact ⟨rfl, Or.inl rfl, _, rfl⟩
  | unanswered left back => exact ⟨rfl, Or.inl rfl, _, rfl⟩
  | missed left => exact ⟨rfl, Or.inl rfl, _, rfl⟩

theorem transportTriggerCallback_send (o : Outcome) {id offset : ℕ} {bytes : List UInt8}
    {shmem : Memory UInt8} (htransport : l.transport ≠ .avrSerial)
    (htable : s.master.table id = s.slave.table id) (hoffset : 0 < offset)
    (hdelivered : Delivered offset bytes shmem s.slave.shmem) :
    (s.transportTriggerCallback l callbacks o id).1.master.table = s.master.table ∧
      Sent l callbacks id offset bytes { s.slave with shmem := shmem }
        (s.transportTriggerCallback l callbacks o id).1.slave
        (s.transportTriggerCallback l callbacks o id).2 := by
  rw [State.transportTriggerCallback, htable]
  by_cases hcallback : (s.slave.table id).slaveCallback = none
  · rw [if_pos hcallback]
    have hran : Sent l callbacks id offset bytes { s.slave with shmem := shmem }
        (s.slave.runCallback l callbacks id) true :=
      Sent.reacted s.slave.shmem hdelivered htransport true
    rw [Half.runCallback] at hran
    dsimp only at hran
    rw [hcallback] at hran
    exact ⟨rfl, hran⟩
  · rw [if_neg hcallback]
    have htrigger := hdelivered.trigger hoffset (UInt8.ofNat id)
    cases o with
    | ok => exact ⟨rfl, .reacted _ htrigger htransport true⟩
    | lost left => exact ⟨rfl, .failed _⟩
    | missed left => exact ⟨rfl, .failed _⟩
    | unanswered left back => exact ⟨rfl, .reacted _ htrigger htransport false⟩

/-- A transaction that sends all of its buffer: it fails before the callback, or the slave has
the bytes and runs the callback. -/
theorem transport_send (o : Outcomes) {id : ℕ} {bytes : List UInt8} {d : TransactionDesc}
    (hmaster : s.master.table id = d) (hslave : s.slave.table id = d)
    (hsize : bytes.length = d.initiator2targetBufferSize.toNat)
    (hoffset : 0 < d.initiator2targetOffset)
    (hkeep : (s.slave.runCallback l callbacks id).table id = d)
    (hnoticed : l.transport = .serialProtocol → ∀ left, o.write ≠ .missed left) :
    (s.transportExecuteTransaction l callbacks o id bytes 0).1.master.table = s.master.table ∧
      Sent l callbacks id d.initiator2targetOffset bytes s.slave
        (s.transportExecuteTransaction l callbacks o id bytes 0).1.slave
        (s.transportExecuteTransaction l callbacks o id bytes 0).2.1 ∧
      (l.transport ≠ .i2c →
        (s.transportExecuteTransaction l callbacks o id bytes 0).2.1 = true → o.write = .ok) := by
  have hlen : min d.initiator2targetBufferSize.toNat bytes.length = bytes.length := by omega
  rw [State.transportExecuteTransaction, hmaster]
  dsimp only
  rw [hlen, List.take_length]
  have hload := Memory.load_store_same s.master.shmem d.initiator2targetOffset bytes
  generalize hcopied : s.master.shmem.store d.initiator2targetOffset bytes = copied at hload ⊢
  by_cases hi2c : l.transport = .i2c
  · rw [if_pos hi2c]
    have htransport : l.transport ≠ .avrSerial := by
      rw [hi2c]
      decide
    have hvoid : ∀ {ok : Bool}, l.transport ≠ .i2c → ok = true → o.write = .ok :=
      fun hne _ => absurd hi2c hne
    have hfirst : ∃ first : State × Bool,
        (if bytes = [] then (s, true)
          else State.i2cWriteRegister o.write d.initiator2targetOffset
            (copied.load d.initiator2targetOffset bytes.length)
            { s with master := { s.master with shmem := copied } }) =
          first ∧ first.1.master.table = s.master.table ∧
          (first.2 = false ∨
            Delivered d.initiator2targetOffset bytes s.slave.shmem first.1.slave.shmem) ∧
          ∃ shmem, first.1.slave = { s.slave with shmem := shmem } := by
      by_cases hnil : bytes = []
      · refine ⟨_, if_pos hnil, rfl, Or.inr ?_, s.slave.shmem, rfl⟩
        subst hnil
        exact ⟨rfl, fun _ _ _ => rfl⟩
      · refine ⟨_, if_neg hnil, ?_⟩
        rw [hload]
        rcases i2cWriteRegister_send o.write d.initiator2targetOffset bytes
          { s with master := { s.master with shmem := copied } } with ⟨hmaster', hrest⟩
        exact ⟨by rw [hmaster'], hrest⟩
    rcases hfirst with ⟨first, hfirst, htable, hdelivered, shmem, hshmem⟩
    rw [hfirst]
    cases hok : first.2 with
    | false =>
      simp only [Bool.not_false, if_true]
      rw [hshmem]
      exact ⟨htable, .failed shmem, hvoid⟩
    | true =>
      rw [hok] at hdelivered
      have hsame : first.1.master.table id = first.1.slave.table id := by
        rw [htable, hmaster, hshmem, hslave]
      have hsent := @transportTriggerCallback_send l callbacks first.1 o.trigger id _ bytes _
        htransport hsame hoffset (hdelivered.resolve_left nofun)
      rw [htable, hshmem] at hsent
      cases hok' : (first.1.transportTriggerCallback l callbacks o.trigger id).2 with
      | false =>
        rw [hok'] at hsent
        exact ⟨hsent.1, hsent.2, hvoid⟩
      | true =>
        rw [hok'] at hsent
        exact ⟨hsent.1, hsent.2, hvoid⟩
  · rw [if_neg hi2c]
    have hsent := @softSerialTransaction_send l callbacks
      { s with master := { s.master with shmem := copied } } o id bytes d hmaster hslave
      hsize hoffset hload hkeep hnoticed
    cases hok : (State.softSerialTransaction l callbacks o id
      { s with master := { s.master with shmem := copied } }).2 with
    | false =>
      rw [hok] at hsent
      exact ⟨hsent.1, hsent.2.1, fun _ => hsent.2.2⟩
    | true =>
      rw [hok] at hsent
      exact ⟨hsent.1, hsent.2.1, fun _ => hsent.2.2⟩

/-! ## The transaction that receives -/

theorem softSerialTransaction_receive (o : Outcomes) {id offset : ℕ} {size : UInt8}
    (hmaster : s.master.table id = ⟨0, 0, size, offset, none⟩)
    (hslave : s.slave.table id = ⟨0, 0, size, offset, none⟩) :
    (s.softSerialTransaction l callbacks o id).1.master.table = s.master.table ∧
      (s.softSerialTransaction l callbacks o id).1.slave = s.slave ∧
      ((s.softSerialTransaction l callbacks o id).2 = true →
        (s.softSerialTransaction l callbacks o id).1.master.shmem =
          s.master.shmem.store offset (s.slave.shmem.load offset size.toNat)) := by
  have hsame : s.SameSizes id := by
    rw [State.SameSizes, hmaster, hslave]
    exact ⟨rfl, rfl⟩
  have hleave : ∀ left, State.leave 0 0 left s.slave = s.slave := by
    intro left
    rw [State.leave, UInt8.toNat_zero, List.take_zero, Memory.store_nil]
  have hcallback : Half.runCallback l callbacks id s.slave = s.slave := by
    rw [Half.runCallback, hslave]
  have harrive : s.slave.arrive l id [] = s.slave := by
    rw [Half.arrive, hslave, List.take_nil, Memory.store_nil]
    cases l.transport <;> rfl
  have hanswer : s.slave.answer id = s.slave.shmem.load offset size.toNat := by
    rw [Half.answer, hslave]
  have hreact : s.slave.react l callbacks id [] =
      (s.slave, s.slave.shmem.load offset size.toNat) := by
    by_cases havr : l.transport = .avrSerial
    · rw [Half.react_avr _ havr, hcallback, harrive, hanswer]
    · rw [Half.react_other _ havr, harrive, hcallback, hanswer]
  rw [State.softSerialTransaction, hmaster, hslave]
  dsimp only
  rw [UInt8.toNat_zero, Memory.load_zero, hreact, hcallback]
  cases hwrite : o.write with
  | ok =>
    dsimp only
    rw [if_pos hsame]
    exact ⟨rfl, rfl, fun _ => rfl⟩
  | lost left => exact ⟨rfl, hleave left, fun hok => absurd hok Bool.false_ne_true⟩
  | missed left =>
    refine ⟨rfl, hleave left, fun hok => ?_⟩
    -- there is nothing to receive
    have hzero : size = 0 := (of_decide_eq_true hok).2
    rw [hzero, UInt8.toNat_zero, Memory.load_zero, Memory.store_nil]
  | unanswered left back =>
    dsimp only
    rw [if_pos hsame]
    refine ⟨rfl, ?_, fun hok => absurd hok Bool.false_ne_true⟩
    dsimp only
    split_ifs
    · exact hleave left
    · rfl

theorem i2cReadRegister_receive (o : Outcome) (offset len : ℕ) (s : State) :
    (s.i2cReadRegister o offset len).1.master.table = s.master.table ∧
      (s.i2cReadRegister o offset len).1.slave = s.slave ∧
      ((s.i2cReadRegister o offset len).2 = true →
        (s.i2cReadRegister o offset len).1.master.shmem =
          s.master.shmem.store offset (s.slave.shmem.load offset len)) := by
  cases o with
  | ok => exact ⟨rfl, rfl, fun _ => rfl⟩
  | lost left => exact ⟨rfl, rfl, nofun⟩
  | missed left => exact ⟨rfl, rfl, nofun⟩
  | unanswered left back => exact ⟨rfl, rfl, nofun⟩

/-- The slave stays as it is, and what it has comes to the caller. -/
theorem transport_receive (o : Outcomes) {id offset : ℕ} {size : UInt8}
    (hmaster : s.master.table id = ⟨0, 0, size, offset, none⟩)
    (hslave : s.slave.table id = ⟨0, 0, size, offset, none⟩) :
    (s.transportExecuteTransaction l callbacks o id [] size.toNat).1.master.table =
        s.master.table ∧
      (s.transportExecuteTransaction l callbacks o id [] size.toNat).1.slave = s.slave ∧
      ((s.transportExecuteTransaction l callbacks o id [] size.toNat).2.1 = true →
        (s.transportExecuteTransaction l callbacks o id [] size.toNat).2.2 =
          s.slave.shmem.load offset size.toNat) := by
  have hload : ∀ m m' : Memory UInt8,
      m' = m.store offset (s.slave.shmem.load offset size.toNat) →
        m'.load offset size.toNat = s.slave.shmem.load offset size.toNat := by
    intro m m' hm'
    have hsame := m.load_store_same offset (s.slave.shmem.load offset size.toNat)
    rwa [Memory.load_length, ← hm'] at hsame
  rw [State.transportExecuteTransaction, hmaster]
  dsimp only
  rw [Nat.min_self, List.take_nil, Memory.store_nil]
  by_cases hi2c : l.transport = .i2c
  · have htrigger : State.transportTriggerCallback l callbacks o.trigger id s = (s, true) := by
      rw [State.transportTriggerCallback, if_pos (by rw [hmaster])]
    rw [if_pos hi2c, if_pos rfl]
    dsimp only
    rw [htrigger]
    simp only [Bool.not_true, Bool.false_eq_true, if_false]
    by_cases hzero : size.toNat = 0
    · rw [if_pos hzero, hzero]
      exact ⟨rfl, rfl, fun _ => rfl⟩
    · rw [if_neg hzero]
      rcases i2cReadRegister_receive o.read offset size.toNat s with ⟨htable, hslave', hok⟩
      cases hread : (s.i2cReadRegister o.read offset size.toNat).2 with
      | false => exact ⟨htable, hslave', nofun⟩
      | true => exact ⟨htable, hslave', fun _ => hload _ _ (hok hread)⟩
  · rw [if_neg hi2c]
    rcases @softSerialTransaction_receive l callbacks s o id offset size hmaster hslave with
      ⟨htable, hslave', hok⟩
    cases hwrite : (s.softSerialTransaction l callbacks o id).2 with
    | false => exact ⟨htable, hslave', nofun⟩
    | true => exact ⟨htable, hslave', fun _ => hload _ _ (hok hwrite)⟩

/-! ## What the slave finds -/

theorem signed_ofInt {id : ℤ} (hzero : 0 ≤ id) (hlt : id < 128) : signed (UInt8.ofInt id) = id := by
  have hall : ∀ n : Fin 128, signed (UInt8.ofInt (n.val : ℤ)) = n.val := by decide
  have hsigned := hall ⟨id.toNat, by omega⟩
  dsimp only at hsigned
  rwa [Int.toNat_of_nonneg hzero] at hsigned

theorem load_four (m : Memory UInt8) (a : ℕ) : m.load a 4 = [m a, m (a + 1), m (a + 2), m (a + 3)] :=
  rfl

/-- The lengths of the info block become the sizes of the slave. -/
theorem runCallback_info {h : Half} (hw : h.Wired l) {c : Call}
    (hinfo : h.shmem.load l.rpcInfoOffset 4 = c.info) :
    h.runCallback l callbacks l.putRpcInfo = h.setSizes l c.m2sLength c.s2mLength := by
  rw [load_four, Call.info] at hinfo
  simp only [List.cons.injEq, and_true] at hinfo
  rw [Half.runCallback, hw.info]
  dsimp only
  rw [Half.slaveRpcInfoCallback, Half.m2sLength, Half.s2mLength, hinfo.2.2.1, hinfo.2.2.2]

/-- A slave that has the info block and the request of a call. -/
structure Prepared (l : Layout) (c : Call) (h : Half) : Prop where
  wired : h.Wired l
  info : h.shmem.load l.rpcInfoOffset 4 = c.info
  request : h.shmem.load l.rpcM2sBuffer c.m2sLength.toNat = c.request

/-- It runs the registered callback. -/
theorem Prepared.exec {h : Half} {c : Call} (hp : Prepared l c h) (hzero : 0 ≤ c.transactionId)
    (hlt : c.transactionId < l.numTotalTransactions)
    (hregistered : (h.table c.transactionId.toNat).slaveCallback = some .registered) :
    ∃ response, (h.slaveRpcExecCallback l callbacks).invocations = h.invocations ++
        [⟨c.transactionId.toNat, c.m2sLength, c.request, c.s2mLength, response⟩] ∧
      (h.slaveRpcExecCallback l callbacks).shmem.load l.rpcS2mBuffer c.s2mLength.toNat =
        response ∧
      (h.slaveRpcExecCallback l callbacks).table = h.table := by
  have hinfo := hp.info
  rw [load_four, Call.info] at hinfo
  simp only [List.cons.injEq, and_true] at hinfo
  rcases hinfo with ⟨hchecksum, hid, hm2s, hs2m⟩
  have hpayload : h.shmem.load (l.rpcInfoOffset + 1) 3 =
      [UInt8.ofInt c.transactionId, c.m2sLength, c.s2mLength] := by
    rw [← hid, ← hm2s, ← hs2m]
    rfl
  have hfive := l.fiveBits
  have htransactionId : h.transactionId l = c.transactionId := by
    rw [Half.transactionId, hid]
    exact signed_ofInt hzero (by omega)
  rw [Half.slaveRpcExecCallback, if_neg (by rw [hpayload, hchecksum]; simp), htransactionId]
  dsimp only
  rw [if_pos hlt, if_neg (by omega), hregistered]
  dsimp only
  rw [Half.runRegistered]
  dsimp only
  have hm2s' : ∀ indexed, Half.m2sLength l { h with indexed := indexed } = c.m2sLength :=
    fun _ => hm2s
  have hs2m' : ∀ indexed, Half.s2mLength l { h with indexed := indexed } = c.s2mLength :=
    fun _ => hs2m
  rw [hm2s', hs2m', hp.request]
  exact ⟨_, rfl, rfl, rfl⟩

/-! ## Calls -/

/-- What a call has done: nothing or one invocation has been added on the slave, of the id of
the call, with its request and its lengths.  If the call succeeds there is one, and its
response has come to the caller. -/
def Agrees (c : Call) (before after : List Invocation) (ok : Bool) (response : List UInt8) :
    Prop :=
  (after = before ∧ ok = false) ∨
    ∃ answer, after =
        before ++ [⟨c.transactionId.toNat, c.m2sLength, c.request, c.s2mLength, answer⟩] ∧
      (ok = true → response = answer)

/-- The two halves are wired. -/
structure State.Ready (l : Layout) (s : State) : Prop where
  master : s.master.Wired l
  slave : s.slave.Wired l

/-- The callbacks are not changed by calls. -/
theorem setSizes_slaveCallback (m2s s2m : UInt8) (h : Half) (i : ℕ) :
    ((h.setSizes l m2s s2m).table i).slaveCallback = (h.table i).slaveCallback := by
  by_cases hresponse : i = l.getRpcRespData
  · rw [hresponse, Half.setSizes_response]
  by_cases hrequest : i = l.putRpcReqData
  · rw [hrequest, Half.setSizes_request]
  · rw [Half.setSizes_of_ne hrequest hresponse]

/-- The info block: the call goes on with a slave that has it. -/
theorem send_info (o : Outcomes) (hready : s.Ready l) (c : Call)
    (hnoticed : l.transport = .serialProtocol → ∀ left, o.write ≠ .missed left)
    (hlengths : l.transport = .avrSerial → o.write = .ok →
      s.slave.m2sLength l = c.m2sLength ∧ s.slave.s2mLength l = c.s2mLength) :
    let r := s.transportExecuteTransaction l callbacks o l.putRpcInfo c.info 0
    r.1.master.table = s.master.table ∧ r.1.slave.Wired l ∧
      (∀ i, (r.1.slave.table i).slaveCallback = (s.slave.table i).slaveCallback) ∧
      r.1.slave.invocations = s.slave.invocations ∧
      (r.2.1 = true → r.1.slave.shmem.load l.rpcInfoOffset 4 = c.info ∧
        (l.transport ≠ .i2c → o.write = .ok) ∧
        ∃ shmem, r.1.slave =
          Half.setSizes l c.m2sLength c.s2mLength { s.slave with shmem := shmem }) := by
  intro r
  have hcallback := runCallback_putRpcInfo callbacks hready.slave
  have hkeep : (s.slave.runCallback l callbacks l.putRpcInfo).table l.putRpcInfo =
      ⟨4, l.rpcInfoOffset, 0, 0, some .rpcInfo⟩ := by
    rw [hcallback]
    exact (hready.slave.setSizes _ _).info
  have hsend := @transport_send l callbacks s o l.putRpcInfo c.info _ hready.master.info
    hready.slave.info rfl l.offset_pos hkeep hnoticed
  obtain ⟨htable, hsent, hok⟩ := hsend
  refine ⟨htable, ?_⟩
  change Sent _ _ _ _ _ _ r.1.slave r.2.1 at hsent
  change l.transport ≠ .i2c → r.2.1 = true → o.write = .ok at hok
  generalize r.1.slave = slave at hsent ⊢
  generalize r.2.1 = ok at hsent hok ⊢
  cases hsent with
  | failed shmem =>
    refine ⟨hready.slave.of_table rfl, fun _ => rfl, rfl, ?_⟩
    intro htrue
    exact absurd htrue Bool.false_ne_true
  | reacted shmem hdelivered htransport =>
    have hload : shmem.load l.rpcInfoOffset 4 = c.info := hdelivered.load
    have hwired : Half.Wired l { s.slave with shmem := shmem } := hready.slave.of_table rfl
    rw [runCallback_info hwired hload]
    exact ⟨hwired.setSizes _ _, setSizes_slaveCallback _ _ _, rfl,
      fun htrue => ⟨hload, fun hne => hok hne htrue, shmem, rfl⟩⟩
  | calledBack shmem _ htransport hdelivered =>
    rw [hcallback] at hdelivered ⊢
    refine ⟨(hready.slave.setSizes _ _).of_table rfl, setSizes_slaveCallback _ _ _, rfl, ?_⟩
    intro htrue
    have hne : l.transport ≠ .i2c := by
      rw [htransport]
      decide
    have hwrite := hok hne htrue
    obtain ⟨hm2s, hs2m⟩ := hlengths htransport hwrite
    refine ⟨(hdelivered htrue).load, fun _ => hwrite, shmem, ?_⟩
    rw [hm2s, hs2m]
    rfl

/-- The request data: the slave keeps the info block. -/
theorem send_request (o : Outcomes) {c : Call}
    (hmaster : s.master.table l.putRpcReqData = ⟨c.m2sLength, l.rpcM2sBuffer, 0, 0, none⟩)
    (hslave : s.slave.table l.putRpcReqData = ⟨c.m2sLength, l.rpcM2sBuffer, 0, 0, none⟩)
    (hwired : s.slave.Wired l) (hinfo : s.slave.shmem.load l.rpcInfoOffset 4 = c.info)
    (hnoticed : l.transport = .serialProtocol → ∀ left, o.write ≠ .missed left) :
    let r := s.transportExecuteTransaction l callbacks o l.putRpcReqData c.request 0
    r.1.master.table = s.master.table ∧ r.1.slave.table = s.slave.table ∧
      r.1.slave.invocations = s.slave.invocations ∧
      (r.2.1 = true → Prepared l c r.1.slave ∧ (l.transport ≠ .i2c → o.write = .ok)) := by
  intro r
  have hpos : 0 < l.rpcM2sBuffer := Nat.lt_add_left _ (by decide)
  have hcallback : ∀ shmem, Half.runCallback l callbacks l.putRpcReqData
      { s.slave with shmem := shmem } = { s.slave with shmem := shmem } := fun shmem =>
    runCallback_putRpcReqData (h := { s.slave with shmem := shmem }) _ (hwired.of_table rfl)
  have hkeep := runCallback_putRpcReqData callbacks hwired
  obtain ⟨htable, hsent, hok⟩ := @transport_send l callbacks s o l.putRpcReqData c.request _
    hmaster hslave c.length_request hpos (by rw [hkeep]; exact hslave) hnoticed
  refine ⟨htable, ?_⟩
  change Sent _ _ _ _ _ _ r.1.slave r.2.1 at hsent
  change l.transport ≠ .i2c → r.2.1 = true → o.write = .ok at hok
  have hprepared : ∀ {shmem : Memory UInt8},
      Delivered l.rpcM2sBuffer c.request s.slave.shmem shmem →
        Prepared l c { s.slave with shmem := shmem } := by
    intro shmem hdelivered
    refine ⟨hwired.of_table rfl, ?_, ?_⟩
    · rw [← hinfo]
      apply Memory.load_congr
      intro i hle hlt
      exact hdelivered.frame i (l.offset_pos.trans_le hle) (Or.inl hlt)
    · have hload := hdelivered.load
      rwa [c.length_request] at hload
  generalize r.1.slave = slave at hsent ⊢
  generalize r.2.1 = ok at hsent hok ⊢
  cases hsent with
  | failed shmem => exact ⟨rfl, rfl, fun htrue => absurd htrue Bool.false_ne_true⟩
  | reacted shmem hdelivered htransport =>
    rw [hcallback]
    exact ⟨rfl, rfl, fun htrue => ⟨hprepared hdelivered, fun hne => hok hne htrue⟩⟩
  | calledBack shmem _ htransport hdelivered =>
    rw [hkeep] at hdelivered ⊢
    exact ⟨rfl, rfl, fun htrue => ⟨hprepared (hdelivered htrue), fun hne => hok hne htrue⟩⟩

/-- The id of the call comes again. -/
theorem Prepared.of_delivered {h : Half} {c : Call} (hp : Prepared l c h) {shmem : Memory UInt8}
    (hdelivered : Delivered (l.rpcInfoOffset + 1) [UInt8.ofInt c.transactionId] h.shmem shmem) :
    Prepared l c { h with shmem := shmem } := by
  have hinfo := hp.info
  have hid : [shmem (l.rpcInfoOffset + 1)] = [UInt8.ofInt c.transactionId] := hdelivered.load
  have hoffset := l.offset_pos
  refine ⟨hp.wired.of_table rfl, ?_, ?_⟩
  · rw [load_four, Call.info] at hinfo ⊢
    change [shmem l.rpcInfoOffset, shmem (l.rpcInfoOffset + 1), shmem (l.rpcInfoOffset + 2),
      shmem (l.rpcInfoOffset + 3)] = _
    rw [hdelivered.frame l.rpcInfoOffset hoffset (Or.inl (by simp)),
      hdelivered.frame (l.rpcInfoOffset + 2) (by omega) (Or.inr (by simp)),
      hdelivered.frame (l.rpcInfoOffset + 3) (by omega) (Or.inr (by simp)),
      List.singleton_inj.mp hid]
    simp only [List.cons.injEq, and_true] at hinfo ⊢
    exact ⟨hinfo.1, trivial, hinfo.2.2⟩
  · rw [← hp.request]
    apply Memory.load_congr
    intro i hle _
    rw [Layout.rpcM2sBuffer] at hle
    exact hdelivered.frame i (by omega) (Or.inr (by simp; omega))

/-- The execution: it does not reach the slave, or the callback runs. -/
theorem send_execute (o : Outcomes) {c : Call} (hmaster : s.master.Wired l)
    (hprepared : Prepared l c s.slave) (hzero : 0 ≤ c.transactionId)
    (hlt : c.transactionId < l.numTotalTransactions)
    (hregistered : (s.slave.table c.transactionId.toNat).slaveCallback = some .registered)
    (hnoticed : l.transport = .serialProtocol → ∀ left, o.write ≠ .missed left) :
    let r := s.transportExecuteTransaction l callbacks o l.executeRpc
      [UInt8.ofInt c.transactionId] 0
    r.1.master.table = s.master.table ∧ r.1.slave.table = s.slave.table ∧
      ((r.2.1 = false ∧ r.1.slave.invocations = s.slave.invocations) ∨
        ∃ response, r.1.slave.invocations = s.slave.invocations ++
            [⟨c.transactionId.toNat, c.m2sLength, c.request, c.s2mLength, response⟩] ∧
          (r.2.1 = true → r.1.slave.shmem.load l.rpcS2mBuffer c.s2mLength.toNat = response)) := by
  intro r
  have hcallback := runCallback_executeRpc callbacks hprepared.wired
  have hkeep : (s.slave.runCallback l callbacks l.executeRpc).table l.executeRpc =
      ⟨1, l.rpcInfoOffset + 1, 0, 0, some .rpcExec⟩ := by
    rw [hcallback]
    exact (wired_exec callbacks hprepared.wired).execute
  obtain ⟨htable, hsent, -⟩ := @transport_send l callbacks s o l.executeRpc
    [UInt8.ofInt c.transactionId] _ hmaster.execute hprepared.wired.execute rfl (Nat.succ_pos _)
    hkeep hnoticed
  refine ⟨htable, ?_⟩
  change Sent _ _ _ _ _ _ r.1.slave r.2.1 at hsent
  generalize r.1.slave = slave at hsent ⊢
  generalize r.2.1 = ok at hsent ⊢
  cases hsent with
  | failed shmem => exact ⟨rfl, Or.inl ⟨rfl, rfl⟩⟩
  | reacted shmem hdelivered htransport =>
    rcases @Prepared.exec l callbacks _ c (hprepared.of_delivered hdelivered) hzero hlt
      hregistered with ⟨response, hinv, hload, htable'⟩
    rw [runCallback_executeRpc (h := { s.slave with shmem := shmem }) callbacks
      (hprepared.wired.of_table rfl)]
    exact ⟨htable', Or.inr ⟨response, hinv, fun _ => hload⟩⟩
  | calledBack shmem _ htransport hdelivered =>
    rcases @Prepared.exec l callbacks _ c hprepared hzero hlt hregistered with
      ⟨response, hinv, hload, htable'⟩
    rw [hcallback] at hdelivered ⊢
    refine ⟨htable', Or.inr ⟨response, hinv, fun htrue => ?_⟩⟩
    rw [← hload]
    apply Memory.load_congr
    intro i hle _
    rw [Layout.rpcS2mBuffer, Layout.rpcM2sBuffer] at hle
    exact (hdelivered htrue).frame i (by omega) (Or.inr (by simp; omega))

/-- What the condition says of a call that the master does not refuse. -/
theorem Sound.spec {c : Call} {o : CallOutcomes} (h : Sound l c o s) (haccepted : Accepted l c o) :
    (l.transport = .avrSerial → o.info.write = .ok →
      s.slave.m2sLength l = c.m2sLength ∧ s.slave.s2mLength l = c.s2mLength) ∧
      (l.transport = .serialProtocol → Noticed [o.info, o.request, o.execute]) := by
  have hcase := h haccepted
  constructor
  · intro havr
    rw [havr] at hcase
    exact hcase
  · intro hserial
    rw [hserial] at hcase
    exact hcase

/-- A call agrees, and the halves stay wired. -/
theorem State.Ready.call (hready : s.Ready l) (c : Call) (o : CallOutcomes)
    (hlt : c.transactionId < l.numTotalTransactions)
    (hregistered : (s.slave.table c.transactionId.toNat).slaveCallback = some .registered)
    (hsound : Sound l c o s) :
    (transactionRpcExec l callbacks c o s).1.Ready l ∧
      (∀ i, ((transactionRpcExec l callbacks c o s).1.slave.table i).slaveCallback =
        (s.slave.table i).slaveCallback) ∧
      Agrees c s.slave.invocations (transactionRpcExec l callbacks c o s).1.slave.invocations
        (transactionRpcExec l callbacks c o s).2.1 (transactionRpcExec l callbacks c o s).2.2 := by
  rw [transactionRpcExec]
  by_cases hconnected : o.connected = false
  · rw [hconnected]
    exact ⟨hready, fun _ => rfl, Or.inl ⟨rfl, rfl⟩⟩
  by_cases hid : c.transactionId ≤ l.getRpcRespData
  · rw [if_neg (by simpa using hconnected), if_pos hid]
    exact ⟨hready, fun _ => rfl, Or.inl ⟨rfl, rfl⟩⟩
  by_cases hm2s : l.rpcM2sBufferSize < c.m2sLength.toNat
  · rw [if_neg (by simpa using hconnected), if_neg hid, if_pos hm2s]
    exact ⟨hready, fun _ => rfl, Or.inl ⟨rfl, rfl⟩⟩
  by_cases hs2m : l.rpcS2mBufferSize < c.s2mLength.toNat
  · rw [if_neg (by simpa using hconnected), if_neg hid, if_neg hm2s, if_pos hs2m]
    exact ⟨hready, fun _ => rfl, Or.inl ⟨rfl, rfl⟩⟩
  rw [if_neg (by simpa using hconnected), if_neg hid, if_neg hm2s, if_neg hs2m]
  dsimp only
  obtain ⟨hlengths, hnotice⟩ := hsound.spec
    ⟨by simpa using hconnected, by omega, by omega, by omega⟩
  have hmaster := hready.master.setSizes c.m2sLength c.s2mLength
  rcases hready.master.request with ⟨m2s, hmasterRequest⟩
  rcases hready.master.response with ⟨s2m, hmasterResponse⟩
  rcases hready.slave.request with ⟨m2s', hslaveRequest⟩
  rcases hready.slave.response with ⟨s2m', hslaveResponse⟩
  -- the info block
  have hinfo := @send_info l callbacks
    { s with master := s.master.setSizes l c.m2sLength c.s2mLength } o.info
    ⟨hmaster, hready.slave⟩ c (fun hserial => (hnotice hserial).1) hlengths
  dsimp only at hinfo
  generalize State.transportExecuteTransaction l callbacks o.info l.putRpcInfo c.info 0
    { s with master := s.master.setSizes l c.m2sLength c.s2mLength } = info at hinfo ⊢
  rcases info with ⟨s₁, ok₁, _⟩
  rcases hinfo with ⟨hmaster₁, hslave₁, hcallbacks, hinv₁, hinfo⟩
  dsimp only at hmaster₁ hslave₁ hcallbacks hinv₁ hinfo ⊢
  cases ok₁ with
  | false => exact ⟨⟨hmaster.of_table hmaster₁, hslave₁⟩, hcallbacks, Or.inl ⟨hinv₁, rfl⟩⟩
  | true =>
  rcases hinfo rfl with ⟨hblock, hok₁, shmem, hsizes⟩
  have hrequest₁ : s₁.slave.table l.putRpcReqData =
      ⟨c.m2sLength, l.rpcM2sBuffer, 0, 0, none⟩ := by
    rw [hsizes, Half.setSizes_request, hslaveRequest]
  have hresponse₁ : s₁.slave.table l.getRpcRespData =
      ⟨0, 0, c.s2mLength, l.rpcS2mBuffer, none⟩ := by
    rw [hsizes, Half.setSizes_response, hslaveResponse]
  have hmasterRequest₁ : s₁.master.table l.putRpcReqData =
      ⟨c.m2sLength, l.rpcM2sBuffer, 0, 0, none⟩ := by
    rw [hmaster₁, Half.setSizes_request, hmasterRequest]
  have hmasterResponse₁ : s₁.master.table l.getRpcRespData =
      ⟨0, 0, c.s2mLength, l.rpcS2mBuffer, none⟩ := by
    rw [hmaster₁, Half.setSizes_response, hmasterResponse]
  simp only [Bool.not_true, Bool.false_eq_true, if_false]
  -- the request data
  have hnotice₁ : l.transport = .serialProtocol → Noticed [o.request, o.execute] := fun hserial =>
    (hnotice hserial).2 (hok₁ (by rw [hserial]; decide))
  have hrequest := @send_request l callbacks s₁ o.request c hmasterRequest₁ hrequest₁ hslave₁
    hblock fun hserial => (hnotice₁ hserial).1
  dsimp only at hrequest
  generalize s₁.transportExecuteTransaction l callbacks o.request l.putRpcReqData c.request 0 =
    request at hrequest ⊢
  rcases request with ⟨s₂, ok₂, _⟩
  rcases hrequest with ⟨hmaster₂, hslave₂, hinv₂, hprepared⟩
  dsimp only at hmaster₂ hslave₂ hinv₂ hprepared ⊢
  have hmasterWired₂ : s₂.master.Wired l := hmaster.of_table (hmaster₂.trans hmaster₁)
  rw [← hslave₂] at hcallbacks
  cases ok₂ with
  | false =>
    exact ⟨⟨hmasterWired₂, hslave₁.of_table hslave₂⟩, hcallbacks,
      Or.inl ⟨hinv₂.trans hinv₁, rfl⟩⟩
  | true =>
  simp only [Bool.not_true, Bool.false_eq_true, if_false]
  -- the execution
  obtain ⟨hprepared, hok₂⟩ := hprepared rfl
  have hexecute := @send_execute l callbacks s₂ o.execute c hmasterWired₂ hprepared
    (by omega) hlt ((hcallbacks _).trans hregistered)
    fun hserial => ((hnotice₁ hserial).2 (hok₂ (by rw [hserial]; decide))).1
  dsimp only at hexecute
  generalize s₂.transportExecuteTransaction l callbacks o.execute l.executeRpc
    [UInt8.ofInt c.transactionId] 0 = execute at hexecute ⊢
  rcases execute with ⟨s₃, ok₃, _⟩
  rcases hexecute with ⟨hmaster₃, hslave₃, hran⟩
  dsimp only at hmaster₃ hslave₃ hran ⊢
  have hready₃ : s₃.Ready l :=
    ⟨hmasterWired₂.of_table hmaster₃, hslave₁.of_table (hslave₃.trans hslave₂)⟩
  rw [← hslave₃] at hcallbacks
  cases ok₃ with
  | false =>
    refine ⟨hready₃, hcallbacks, ?_⟩
    rcases hran with ⟨-, hinv₃⟩ | ⟨response, hinv₃, -⟩
    · exact Or.inl ⟨hinv₃.trans (hinv₂.trans hinv₁), rfl⟩
    · exact Or.inr ⟨response, by rw [← hinv₁, ← hinv₂]; exact hinv₃, nofun⟩
  | true =>
  rcases hran with ⟨hfail, -⟩ | ⟨response, hinv₃, hload⟩
  · cases hfail
  simp only [Bool.not_true, Bool.false_eq_true, if_false]
  -- the response
  have hresponse := @transport_receive l callbacks s₃ o.response l.getRpcRespData l.rpcS2mBuffer
    c.s2mLength (by rw [hmaster₃, hmaster₂]; exact hmasterResponse₁)
    (by rw [hslave₃, hslave₂]; exact hresponse₁)
  rcases hresponse with ⟨hmaster₄, hslave₄, hcopied⟩
  refine ⟨⟨hready₃.master.of_table hmaster₄, by rw [hslave₄]; exact hready₃.slave⟩,
    by rw [hslave₄]; exact hcallbacks, Or.inr ?_⟩
  refine ⟨response, ?_, fun hok => (hcopied hok).trans (hload rfl)⟩
  rw [hslave₄, ← hinv₁, ← hinv₂]
  exact hinv₃

/-! ## Runs -/

theorem wired_registered (l : Layout) (ids : List ℤ) : (registered l ids).Wired l :=
  (inv_registered l ids).wired

/-- An id keeps its callback when others are registered. -/
theorem slaveCallback_foldl {ids : List ℤ} {id : ℤ} (h : Half)
    (hid : (h.table id.toNat).slaveCallback = some .registered) :
    ((ids.foldl (fun h id => h.transactionRegisterRpc l id) h).table id.toNat).slaveCallback =
      some .registered := by
  induction ids generalizing h with
  | nil => exact hid
  | cons id' ids ih =>
    apply ih
    dsimp only
    rw [Half.transactionRegisterRpc]
    split_ifs
    · exact hid
    · by_cases heq : id.toNat = id'.toNat
      · dsimp only
        rw [heq, Function.update_self]
      · dsimp only
        rw [Function.update_of_ne heq]
        exact hid

theorem slaveCallback_registered {ids : List ℤ} {id : ℤ} (hmem : id ∈ ids)
    (hid : l.getRpcRespData < id) :
    ((registered l ids).table id.toNat).slaveCallback = some .registered := by
  rcases List.append_of_mem hmem with ⟨before, after, rfl⟩
  rw [registered, List.foldl_append, List.foldl_cons]
  apply slaveCallback_foldl
  rw [Half.transactionRegisterRpc, if_neg (by omega)]
  dsimp only
  rw [Function.update_self]

/-- The callbacks of the slave are those of the registered ids. -/
structure State.Serves (l : Layout) (ids : List ℤ) (s : State) : Prop where
  ready : s.Ready l
  registered : ∀ id ∈ ids, l.getRpcRespData < id →
    (s.slave.table id.toNat).slaveCallback = some .registered

/-- A call that the master refuses. -/
theorem transactionRpcExec_of_le {c : Call} (hid : c.transactionId ≤ l.getRpcRespData)
    (o : CallOutcomes) (s : State) : transactionRpcExec l callbacks c o s = (s, false, []) := by
  rw [transactionRpcExec]
  split_ifs <;> rfl

theorem State.Serves.call {ids : List ℤ} (hs : s.Serves l ids) {c : Call} (o : CallOutcomes)
    (hmem : c.transactionId ∈ ids) (hlt : c.transactionId < l.numTotalTransactions)
    (hsound : Sound l c o s) :
    (transactionRpcExec l callbacks c o s).1.Serves l ids ∧
      Agrees c s.slave.invocations (transactionRpcExec l callbacks c o s).1.slave.invocations
        (transactionRpcExec l callbacks c o s).2.1 (transactionRpcExec l callbacks c o s).2.2 := by
  by_cases hid : c.transactionId ≤ l.getRpcRespData
  · rw [transactionRpcExec_of_le hid]
    exact ⟨hs, Or.inl ⟨rfl, rfl⟩⟩
  · rcases @State.Ready.call l callbacks s hs.ready c o hlt (hs.registered _ hmem (by omega))
      hsound with ⟨hready, hcallbacks, hagrees⟩
    refine ⟨⟨hready, ?_⟩, hagrees⟩
    intro id hid hlt'
    rw [hcallbacks]
    exact hs.registered id hid hlt'

/-- In any run of sound calls with registered ids, over any transport and however its transfers
end, each call agrees: the callback of its id runs at most once, with the request and the
lengths of the call, and once with the response that is returned if the call succeeds. -/
theorem rpc_agrees (l : Layout) (callbacks : Callbacks) (masterIds slaveIds : List ℤ)
    (calls : List (Call × CallOutcomes))
    (hids : ∀ call ∈ calls, call.1.transactionId ∈ slaveIds ∧
      call.1.transactionId < l.numTotalTransactions)
    (hsound : StateMachine.Along
      (fun s call => (transactionRpcExec l callbacks call.1 call.2 s).1)
      (fun s call => Sound l call.1 call.2 s)
      ⟨registered l masterIds, registered l slaveIds⟩ calls) :
    StateMachine.Along (fun s call => (transactionRpcExec l callbacks call.1 call.2 s).1)
      (fun s call => Agrees call.1 s.slave.invocations
        (transactionRpcExec l callbacks call.1 call.2 s).1.slave.invocations
        (transactionRpcExec l callbacks call.1 call.2 s).2.1
        (transactionRpcExec l callbacks call.1 call.2 s).2.2)
      ⟨registered l masterIds, registered l slaveIds⟩ calls := by
  have hstart : State.Serves l slaveIds ⟨registered l masterIds, registered l slaveIds⟩ :=
    ⟨⟨wired_registered l _, wired_registered l _⟩, fun id hmem hid =>
      slaveCallback_registered hmem hid⟩
  have hregistered : StateMachine.Along
      (fun s (call : Call × CallOutcomes) => (transactionRpcExec l callbacks call.1 call.2 s).1)
      (fun _ call => call.1.transactionId ∈ slaveIds ∧
        call.1.transactionId < l.numTotalTransactions)
      ⟨registered l masterIds, registered l slaveIds⟩ calls :=
    StateMachine.along_of_forall fun call hmem _ => hids call hmem
  refine StateMachine.along_of_invariant (State.Serves l slaveIds) ?_ ?_ hstart
    (hregistered.and hsound)
  · intro s call hs hcall
    exact (hs.call call.2 hcall.1.1 hcall.1.2 hcall.2).1
  · intro s call hs hcall
    exact (hs.call call.2 hcall.1.1 hcall.1.2 hcall.2).2

/-- A call with two bytes of request data and one of response data. -/
def smallCall : Call :=
  ⟨7, 2, [0x12, 0x34], 1, rfl⟩

/-- A transaction that goes well. -/
def well : Outcomes :=
  ⟨.ok, .ok, .ok, fun s => (s, false)⟩

/-- The request data is lost, then all goes well. -/
theorem rpc_agrees_small :
    let l := smallLayout .serialProtocol
    let callbacks : Callbacks := fun _ _ request _ => request.reverse
    StateMachine.Along (fun s call => (transactionRpcExec l callbacks call.1 call.2 s).1)
      (fun s call => Agrees call.1 s.slave.invocations
        (transactionRpcExec l callbacks call.1 call.2 s).1.slave.invocations
        (transactionRpcExec l callbacks call.1 call.2 s).2.1
        (transactionRpcExec l callbacks call.1 call.2 s).2.2)
      ⟨registered l [], registered l [7]⟩
      [(smallCall, ⟨true, well, { well with write := .lost [0x12] }, well, well⟩),
        (smallCall, ⟨true, well, well, well, well⟩)] := by
  intro l callbacks
  refine rpc_agrees l callbacks [] [7] _ ?_ ⟨fun _ => ?_, fun _ => ?_, trivial⟩
  · intro call hcall
    rcases List.mem_cons.mp hcall with rfl | hcall
    · exact ⟨List.mem_singleton_self _, by decide⟩
    · rcases List.mem_singleton.mp hcall with rfl
      exact ⟨List.mem_singleton_self _, by decide⟩
  · exact ⟨fun _ => by simp [well], fun _ => ⟨fun _ => by simp, fun h => by simp at h⟩⟩
  · exact ⟨fun _ => by simp [well], fun _ => ⟨fun _ => by simp [well],
      fun _ => ⟨fun _ => by simp [well], fun _ => trivial⟩⟩⟩

/-- The byte of the execution does not come to the slave, which has answered the id: the call
succeeds and no callback has run. -/
theorem not_agrees_missed :
    ¬ StateMachine.Along
      (fun s call => (transactionRpcExec (smallLayout .serialProtocol)
        (fun _ _ request _ => request.reverse) call.1 call.2 s).1)
      (fun s (call : Call × CallOutcomes) => Agrees call.1 s.slave.invocations
        (transactionRpcExec (smallLayout .serialProtocol) (fun _ _ request _ => request.reverse)
          call.1 call.2 s).1.slave.invocations
        (transactionRpcExec (smallLayout .serialProtocol) (fun _ _ request _ => request.reverse)
          call.1 call.2 s).2.1
        (transactionRpcExec (smallLayout .serialProtocol) (fun _ _ request _ => request.reverse)
          call.1 call.2 s).2.2)
      ⟨registered (smallLayout .serialProtocol) [], registered (smallLayout .serialProtocol) [7]⟩
      [(smallCall, ⟨true, well, well, { well with write := .missed [] }, well⟩)] := by
  rintro ⟨⟨-, hok⟩ | ⟨answer, hinvocations, -⟩, -⟩
  · exact absurd hok (by decide)
  · have hlength := congrArg List.length hinvocations
    rw [List.length_append, List.length_singleton] at hlength
    exact absurd hlength (by decide)

end SplitRpc
end VialQmk
