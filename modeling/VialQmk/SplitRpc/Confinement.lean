import Mathlib.Tactic.Common
import VialQmk.SplitRpc.Transactions

/-!
# Split RPC - confinement of the slave

What the slave receives may be anything: an info block has an id, two lengths and a checksum
of the sender's choice.  The callbacks of the slave store the lengths unchecked, and they
compare the id with the end of the table only.  On AVR they run before the slave receives, so
that they act on the block of an earlier transaction.

Main results:

- Theorem {lit}`rpcConfined_iff`: the slave stays within its buffers, its table and the registered
  callbacks if and only if the info blocks and the executed ids do, as the callbacks find them.
-/

namespace VialQmk
namespace SplitRpc

open Function (update)
open SplitEncoder (crc8)

/-- What the slave receives. -/
inductive Received
  | info (checksum transactionId m2sLength s2mLength : UInt8)
  | request (bytes : List UInt8)
  | execute (transactionId : UInt8)
deriving DecidableEq

variable (l : Layout) (callbacks : Callbacks)

/-- The slave receives a transaction of a call. -/
def receive (h : Half) : Received → Half
  | .info checksum id m2s s2m => (h.react l callbacks l.putRpcInfo [checksum, id, m2s, s2m]).1
  | .request bytes => (h.react l callbacks l.putRpcReqData bytes).1
  | .execute id => (h.react l callbacks l.executeRpc [id]).1

/-- The sizes in the table fit the buffers, the table is read inside its bounds, and the
callbacks that have run are those of registered ids, with lengths that fit the buffers. -/
structure Confined (h : Half) : Prop where
  request : (h.table l.putRpcReqData).initiator2targetBufferSize.toNat ≤ l.rpcM2sBufferSize
  response : (h.table l.getRpcRespData).target2initiatorBufferSize.toNat ≤ l.rpcS2mBufferSize
  indexed : ∀ i ∈ h.indexed, 0 ≤ i ∧ i < l.numTotalTransactions
  invocations : ∀ call ∈ h.invocations, l.getRpcRespData < call.id ∧
    call.m2sLength.toNat ≤ l.rpcM2sBufferSize ∧ call.s2mLength.toNat ≤ l.rpcS2mBufferSize

/-- The lengths of an info block fit the buffers. -/
def LengthsFit (m2s s2m : UInt8) : Prop :=
  m2s.toNat ≤ l.rpcM2sBufferSize ∧ s2m.toNat ≤ l.rpcS2mBufferSize

/-- An id that is executed, with the checksum of the info block, is not negative, and one that
has a callback is not one of the first ids and has lengths that fit. -/
def ExecFits (h : Half) (id : UInt8) : Prop :=
  crc8 [id, h.m2sLength l, h.s2mLength l] = h.shmem l.rpcInfoOffset →
    0 ≤ signed id ∧ (signed id < l.numTotalTransactions →
      (h.table (signed id).toNat).slaveCallback ≠ none →
        l.getRpcRespData < (signed id).toNat ∧ LengthsFit l (h.m2sLength l) (h.s2mLength l))

/-- The info block and the executed id that the callbacks find.  On AVR they are those in the
memory, else those that are received. -/
def Fits (h : Half) : Received → Prop
  | .info _ _ m2s s2m =>
    if l.transport = .avrSerial then LengthsFit l (h.m2sLength l) (h.s2mLength l)
    else LengthsFit l m2s s2m
  | .request _ => True
  | .execute id =>
    if l.transport = .avrSerial then ExecFits l h (h.shmem (l.rpcInfoOffset + 1))
    else ExecFits l h id

/-- The slave after the start, with the callbacks of some ids registered. -/
def registered (ids : List ℤ) : Half :=
  ids.foldl (fun h id => h.transactionRegisterRpc l id) l.start

variable {l callbacks} {h : Half}

/-! ## What the callbacks find -/

/-- The info block sets the sizes. -/
theorem runCallback_putRpcInfo (callbacks : Callbacks) (hw : h.Wired l) :
    h.runCallback l callbacks l.putRpcInfo = h.setSizes l (h.m2sLength l) (h.s2mLength l) := by
  rw [Half.runCallback, hw.info]
  rfl

/-- The request data has no callback. -/
theorem runCallback_putRpcReqData (callbacks : Callbacks) (hw : h.Wired l) :
    h.runCallback l callbacks l.putRpcReqData = h := by
  rcases hw.request with ⟨size, hrequest⟩
  rw [Half.runCallback, hrequest]

theorem runCallback_executeRpc (callbacks : Callbacks) (hw : h.Wired l) :
    h.runCallback l callbacks l.executeRpc = h.slaveRpcExecCallback l callbacks := by
  rw [Half.runCallback, hw.execute]

/-- The info block that has been received. -/
theorem lengths_of_delivered {checksum id m2s s2m : UInt8} {shmem : Memory UInt8}
    (hdelivered : Delivered l.rpcInfoOffset [checksum, id, m2s, s2m] h.shmem shmem) :
    Half.m2sLength l { h with shmem := shmem } = m2s ∧
      Half.s2mLength l { h with shmem := shmem } = s2m := by
  have hload := hdelivered.load
  change [shmem l.rpcInfoOffset, shmem (l.rpcInfoOffset + 1), shmem (l.rpcInfoOffset + 2),
    shmem (l.rpcInfoOffset + 3)] = _ at hload
  simp only [List.cons.injEq, and_true] at hload
  exact ⟨hload.2.2.1, hload.2.2.2⟩

/-- The executed id takes the place of that of the info block. -/
theorem execFits_of_delivered {id : UInt8} {shmem : Memory UInt8}
    (hdelivered : Delivered (l.rpcInfoOffset + 1) [id] h.shmem shmem) :
    ExecFits l { h with shmem := shmem } (shmem (l.rpcInfoOffset + 1)) ↔ ExecFits l h id := by
  have hoffset := l.offset_pos
  have hid : shmem (l.rpcInfoOffset + 1) = id := List.singleton_inj.mp hdelivered.load
  have hchecksum : shmem l.rpcInfoOffset = h.shmem l.rpcInfoOffset :=
    hdelivered.frame _ hoffset (Or.inl (Nat.lt_succ_self _))
  have hm2s : Half.m2sLength l { h with shmem := shmem } = h.m2sLength l :=
    hdelivered.frame _ (by omega) (Or.inr (by simp))
  have hs2m : Half.s2mLength l { h with shmem := shmem } = h.s2mLength l :=
    hdelivered.frame _ (by omega) (Or.inr (by simp))
  rw [ExecFits, ExecFits, hm2s, hs2m, hid]
  dsimp only
  rw [hchecksum]

/-- The slave is confined whatever its memory holds. -/
theorem Confined.of_shmem {shmem : Memory UInt8} (hc : Confined l h) :
    Confined l { h with shmem := shmem } :=
  ⟨hc.request, hc.response, hc.indexed, hc.invocations⟩

theorem confined_shmem_iff {shmem : Memory UInt8} :
    Confined l { h with shmem := shmem } ↔ Confined l h :=
  ⟨fun hc => ⟨hc.request, hc.response, hc.indexed, hc.invocations⟩, Confined.of_shmem⟩

/-- The execution leaves the wiring alone. -/
theorem wired_exec (callbacks : Callbacks) (hw : h.Wired l) :
    (h.slaveRpcExecCallback l callbacks).Wired l := by
  rw [Half.slaveRpcExecCallback]
  dsimp only
  split_ifs with hcrc hlast hneg
  · exact hw
  · exact hw.of_table rfl
  · split
    · exact hw.of_table rfl
    · exact hw.of_table rfl
    · rw [Half.slaveRpcInfoCallback]
      apply Half.Wired.setSizes
      exact hw.of_table rfl
    · exact hw.of_table rfl
  · exact hw

/-! ## One step -/

/-- New sizes keep the slave confined if and only if they fit. -/
theorem confined_setSizes_iff (hc : Confined l h) (m2s s2m : UInt8) :
    Confined l (h.setSizes l m2s s2m) ↔ LengthsFit l m2s s2m := by
  constructor
  · intro hsizes
    have hrequest := hsizes.request
    have hresponse := hsizes.response
    rw [Half.setSizes_request] at hrequest
    rw [Half.setSizes_response] at hresponse
    exact ⟨hrequest, hresponse⟩
  · rintro ⟨hm2s, hs2m⟩
    refine ⟨?_, ?_, hc.indexed, hc.invocations⟩
    · rw [Half.setSizes_request]
      exact hm2s
    · rw [Half.setSizes_response]
      exact hs2m

/-- A callback has run: the slave is confined if it is one of a registered id, with lengths
that fit. -/
theorem confined_invoke_iff {h' : Half} {call : Invocation} {id : ℕ} {m2s s2m : UInt8} {i : ℤ}
    (hc : Confined l h)
    (hsizes : LengthsFit l m2s s2m →
      (h'.table l.putRpcReqData).initiator2targetBufferSize.toNat ≤ l.rpcM2sBufferSize ∧
        (h'.table l.getRpcRespData).target2initiatorBufferSize.toNat ≤ l.rpcS2mBufferSize)
    (hindexed : h'.indexed = h.indexed ++ [i]) (hi : 0 ≤ i ∧ i < l.numTotalTransactions)
    (hinvocations : h'.invocations = h.invocations ++ [call]) (hid : call.id = id)
    (hm2s : call.m2sLength = m2s) (hs2m : call.s2mLength = s2m) :
    Confined l h' ↔ l.getRpcRespData < id ∧ LengthsFit l m2s s2m := by
  subst hid hm2s hs2m
  constructor
  · intro h'
    exact h'.invocations call (by rw [hinvocations]; simp)
  · intro hcall
    refine ⟨(hsizes hcall.2).1, (hsizes hcall.2).2, ?_, ?_⟩
    · intro j hj
      rw [hindexed, List.mem_append, List.mem_singleton] at hj
      rcases hj with hj | rfl
      · exact hc.indexed j hj
      · exact hi
    · intro call' hcall'
      rw [hinvocations, List.mem_append, List.mem_singleton] at hcall'
      rcases hcall' with hcall' | rfl
      · exact hc.invocations call' hcall'
      · exact hcall

/-- The execution of the id in the memory. -/
theorem confined_exec_iff (hc : Confined l h) :
    Confined l (h.slaveRpcExecCallback l callbacks) ↔
      ExecFits l h (h.shmem (l.rpcInfoOffset + 1)) := by
  have hpayload : h.shmem.load (l.rpcInfoOffset + 1) 3 =
      [h.shmem (l.rpcInfoOffset + 1), h.m2sLength l, h.s2mLength l] := rfl
  have hid : signed (h.shmem (l.rpcInfoOffset + 1)) = h.transactionId l := rfl
  rw [Half.slaveRpcExecCallback, ExecFits, hpayload, hid]
  by_cases hcrc : crc8 [h.shmem (l.rpcInfoOffset + 1), h.m2sLength l, h.s2mLength l] =
      h.shmem l.rpcInfoOffset
  · rw [if_neg (not_not.mpr hcrc)]
    dsimp only
    generalize h.transactionId l = i
    by_cases hlast : i < l.numTotalTransactions
    · rw [if_pos hlast]
      by_cases hneg : i < 0
      · -- the table is read before its start
        rw [if_pos hneg]
        constructor
        · intro hout
          have hmem := hout.indexed i (by simp)
          omega
        · intro hfits
          have := (hfits hcrc).1
          omega
      · rw [if_neg hneg]
        have hi : 0 ≤ i ∧ i < l.numTotalTransactions := by omega
        generalize hP : (l.getRpcRespData < i.toNat ∧
          LengthsFit l (h.m2sLength l) (h.s2mLength l)) = P
        have hfits : (crc8 [h.shmem (l.rpcInfoOffset + 1), h.m2sLength l, h.s2mLength l] =
            h.shmem l.rpcInfoOffset →
            0 ≤ i ∧ (i < l.numTotalTransactions → (h.table i.toNat).slaveCallback ≠ none → P)) ↔
            ((h.table i.toNat).slaveCallback ≠ none → P) :=
          ⟨fun h => (h hcrc).2 hi.2, fun h _ => ⟨hi.1, fun _ => h⟩⟩
        rw [hfits, ← hP]
        have hsame : LengthsFit l (h.m2sLength l) (h.s2mLength l) →
            (h.table l.putRpcReqData).initiator2targetBufferSize.toNat ≤ l.rpcM2sBufferSize ∧
              (h.table l.getRpcRespData).target2initiatorBufferSize.toNat ≤ l.rpcS2mBufferSize :=
          fun _ => ⟨hc.request, hc.response⟩
        cases hcallback : (h.table i.toNat).slaveCallback with
        | none =>
          refine iff_of_true ⟨hc.request, hc.response, ?_, hc.invocations⟩ (by simp)
          intro j hj
          rcases List.mem_append.mp hj with hj | hj
          · exact hc.indexed j hj
          · exact List.mem_singleton.mp hj ▸ hi
        | some callback =>
          simp only [ne_eq, reduceCtorEq, not_false_eq_true, forall_const]
          cases callback with
          | registered =>
            refine confined_invoke_iff hc ?_ rfl hi rfl rfl rfl rfl
            exact hsame
          | rpcExec =>
            refine confined_invoke_iff hc ?_ rfl hi rfl rfl rfl rfl
            exact hsame
          | core =>
            refine confined_invoke_iff hc ?_ rfl hi rfl rfl rfl rfl
            exact hsame
          | rpcInfo =>
            -- the lengths become the sizes once more
            refine confined_invoke_iff hc ?_ rfl hi rfl rfl rfl rfl
            intro hlengths
            rw [Half.slaveRpcInfoCallback, Half.setSizes_request, Half.setSizes_response]
            exact hlengths
    · rw [if_neg hlast]
      exact iff_of_true hc fun _ => ⟨by omega, fun h => absurd h hlast⟩
  · rw [if_pos hcrc]
    exact iff_of_true hc fun h => absurd h hcrc

/-- The slave is confined, and wired. -/
structure Inv (l : Layout) (h : Half) : Prop where
  wired : h.Wired l
  confined : Confined l h

/-- What is received keeps the slave confined if and only if it fits. -/
theorem Inv.confined_receive_iff (hinv : Inv l h) (r : Received) :
    Confined l (receive l callbacks h r) ↔ Fits l h r := by
  have hoffset := l.offset_pos
  by_cases havr : l.transport = .avrSerial
  · -- the callback finds the memory as it is
    cases r with
    | info checksum id m2s s2m =>
      have hwired := hinv.wired.setSizes (h.m2sLength l) (h.s2mLength l)
      rcases Half.arrive_shmem (l := l) _ hwired.info [checksum, id, m2s, s2m] with
        ⟨shmem, harrive, -⟩
      rw [receive, Half.react_avr h havr, runCallback_putRpcInfo callbacks hinv.wired, Fits,
        if_pos havr]
      dsimp only
      rw [harrive, confined_shmem_iff]
      exact confined_setSizes_iff hinv.confined _ _
    | request bytes =>
      rcases hinv.wired.request with ⟨size, hrequest⟩
      rcases Half.arrive_shmem (l := l) h hrequest bytes with ⟨shmem, harrive, -⟩
      rw [receive, Half.react_avr h havr, runCallback_putRpcReqData callbacks hinv.wired]
      dsimp only
      rw [harrive]
      exact iff_of_true hinv.confined.of_shmem trivial
    | execute id =>
      have hwired := wired_exec callbacks hinv.wired
      rcases Half.arrive_shmem (l := l) _ hwired.execute [id] with ⟨shmem, harrive, -⟩
      rw [receive, Half.react_avr h havr, runCallback_executeRpc callbacks hinv.wired, Fits,
        if_pos havr]
      dsimp only
      rw [harrive, confined_shmem_iff]
      exact confined_exec_iff hinv.confined
  · -- the callback finds what has been received
    cases r with
    | info checksum id m2s s2m =>
      rcases Half.arrive_delivered (l := l) h [checksum, id, m2s, s2m] hinv.wired.info
        (Nat.le_refl 4) hoffset with ⟨shmem, harrive, hdelivered⟩
      have hlengths := lengths_of_delivered hdelivered
      rw [receive, Half.react_other h havr, harrive, Fits, if_neg havr]
      dsimp only
      rw [runCallback_putRpcInfo (h := { h with shmem := shmem }) callbacks
        (hinv.wired.of_table rfl), hlengths.1, hlengths.2]
      exact confined_setSizes_iff hinv.confined.of_shmem _ _
    | request bytes =>
      rcases hinv.wired.request with ⟨size, hrequest⟩
      rcases Half.arrive_shmem (l := l) h hrequest bytes with ⟨shmem, harrive, -⟩
      rw [receive, Half.react_other h havr, harrive]
      dsimp only
      rw [runCallback_putRpcReqData (h := { h with shmem := shmem }) callbacks
        (hinv.wired.of_table rfl)]
      exact iff_of_true hinv.confined.of_shmem trivial
    | execute id =>
      rcases Half.arrive_delivered (l := l) h [id] hinv.wired.execute
        (Nat.le_refl 1) (Nat.succ_pos _) with ⟨shmem, harrive, hdelivered⟩
      rw [receive, Half.react_other h havr, harrive, Fits, if_neg havr]
      dsimp only
      rw [runCallback_executeRpc (h := { h with shmem := shmem }) callbacks
        (hinv.wired.of_table rfl), confined_exec_iff hinv.confined.of_shmem]
      exact execFits_of_delivered hdelivered

/-! ## Runs -/

/-- What is received leaves the wiring alone. -/
theorem wired_receive (hw : h.Wired l) (r : Received) : (receive l callbacks h r).Wired l := by
  have hcallback : ∀ {h : Half} (id : ℕ), h.Wired l → (h.runCallback l callbacks id).Wired l := by
    intro h id hw
    rw [Half.runCallback]
    split
    · exact hw.setSizes _ _
    · exact wired_exec callbacks hw
    · exact hw
  have hreact : ∀ (id : ℕ) (bytes : List UInt8), (h.react l callbacks id bytes).1.Wired l := by
    intro id bytes
    by_cases havr : l.transport = .avrSerial
    · rw [Half.react_avr h havr]
      rcases Half.arrive_shmem (l := l) (h.runCallback l callbacks id)
        (d := (h.runCallback l callbacks id).table id) rfl bytes with ⟨shmem, harrive, -⟩
      dsimp only
      rw [harrive]
      exact (hcallback id hw).of_table rfl
    · rw [Half.react_other h havr]
      rcases Half.arrive_shmem (l := l) h (d := h.table id) rfl bytes with ⟨shmem, harrive, -⟩
      dsimp only
      rw [harrive]
      exact hcallback id (hw.of_table rfl)
  cases r with
  | info checksum id m2s s2m => exact hreact _ _
  | request bytes => exact hreact _ _
  | execute id => exact hreact _ _

theorem Inv.receive (hinv : Inv l h) {r : Received} (hfits : Fits l h r) :
    Inv l (SplitRpc.receive l callbacks h r) :=
  ⟨wired_receive hinv.wired r, (hinv.confined_receive_iff r).mpr hfits⟩

theorem toNat_ofNat_le (n : ℕ) : (UInt8.ofNat n).toNat ≤ n := by
  rw [UInt8.toNat_ofNat']
  exact Nat.mod_le _ _

theorem inv_start (l : Layout) : Inv l l.start := by
  refine ⟨l.wired_start, ⟨?_, ?_, nofun, nofun⟩⟩
  · rw [l.start_request]
    exact toNat_ofNat_le _
  · rw [l.start_response]
    exact toNat_ofNat_le _

/-- Registrations leave the sizes alone. -/
theorem Inv.register (hinv : Inv l h) (id : ℤ) : Inv l (h.transactionRegisterRpc l id) := by
  have hwired := hinv.wired.register id
  rw [Half.transactionRegisterRpc] at hwired ⊢
  split_ifs at hwired ⊢ with hid
  · exact hinv
  · have hlast : l.putRpcReqData ≤ l.getRpcRespData := by
      rw [Layout.putRpcReqData, Layout.getRpcRespData]
      omega
    refine ⟨hwired, ⟨?_, ?_, hinv.confined.indexed, hinv.confined.invocations⟩⟩
    · dsimp only
      rw [Function.update_of_ne (by omega)]
      exact hinv.confined.request
    · dsimp only
      rw [Function.update_of_ne (by omega)]
      exact hinv.confined.response

theorem inv_registered (l : Layout) (ids : List ℤ) : Inv l (registered l ids) := by
  rw [registered]
  apply List.foldlRecOn
  · exact inv_start l
  · intro h hinv id _
    exact hinv.register id

/-- The slave starts confined, and all that it receives keeps it so if and only if each info
block has lengths that fit and each executed id with a callback is one after those of the
calls themselves, as the callbacks find them. -/
theorem rpcConfined_iff (l : Layout) (callbacks : Callbacks) (ids : List ℤ)
    (received : List Received) :
    Confined l (registered l ids) ∧
      (StateMachine.Along (receive l callbacks) (fun h r => Confined l (receive l callbacks h r))
          (registered l ids) received ↔
        StateMachine.Along (receive l callbacks) (Fits l) (registered l ids) received) := by
  refine ⟨(inv_registered l ids).confined, ?_⟩
  apply StateMachine.along_iff_of_invariant (Inv l)
  · intro h r hinv
    exact hinv.confined_receive_iff r
  · intro h r hinv hfits
    exact hinv.receive hfits
  · exact inv_registered l ids

/-- Four ids of calls after the two of the matrix, and one that is registered. -/
def smallLayout (transport : Transport) : Layout where
  transport := transport
  putRpcInfo := 3
  numTotalTransactions := 8
  rpcInfoOffset := 4
  rpcM2sBufferSize := 32
  rpcS2mBufferSize := 32
  otherTransactions := fun _ => ⟨0, 0, 0, 0, none⟩
  ids := by decide
  fiveBits := by decide
  offset_pos := Nat.succ_pos 3

/-- An info block with 255 bytes of request data. -/
theorem not_confined_info :
    ¬ StateMachine.Along (receive (smallLayout .serialProtocol) fun _ _ _ _ => [])
      (fun h r => Confined (smallLayout .serialProtocol)
        (receive (smallLayout .serialProtocol) (fun _ _ _ _ => []) h r))
      (registered (smallLayout .serialProtocol) [7]) [.info 0 7 255 0] := by
  rintro ⟨h, -⟩
  exact absurd h.request (by decide)

end SplitRpc
end VialQmk
