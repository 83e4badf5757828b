import TiiSel4Vm.Rpc.Request
import TiiSel4Vm.Vmm.IoProxy

/-!
# Starting an I/O request

`ioreq_start` files a callback in the slot table, lends a message buffer, puts the message into the
request queue and rings the doorbell.  It can fail at each depth of `driver_rpc_req_mmio_start`,
`driver_rpc_request` and `rpcmsg_request`; only the innermost undoes what it did.

* `driverRpcRequest_requests`, `ioreqStart_starts` — what became of a call, and why;
* `start_undone_iff` — the calls that leave nothing behind when they fail;
* `start_left_behind` — a full queue: the callback stays, and the next request on the slot fails
  its assertion.
-/

namespace TiiSel4Vm.Ioreq

open TiiSel4Vm.RpcQueue TiiSel4Vm.IoProxy

/-! ### The data -/

/-- `ioack_t`, for any functions and any cookies; `none` is NULL. -/
structure Ioack (F C : Type) where
  callback : Option F
  cookie : Option C

/-- What a request uses of `vso_rpc_t`. -/
structure VsoRpc where
  request : Queue
  buffer : RpcMsgBuffer
  bufferState : Bitmap
  /-- whether a doorbell is set -/
  doorbell : Bool
  /-- the calls of the doorbell so far -/
  rings : ℕ

/-- What a request uses of `io_proxy_t`. -/
structure IoProxy (F C : Type) where
  ioacks : Slot → Ioack F C
  rpc : VsoRpc

/-- The arguments of `ioreq_start` beyond the backend and the slot. -/
structure StartArgs (F C : Type) where
  ioackRead : Option F
  ioackWrite : Option F
  cookie : Option C
  addrSpace : BitVec 32
  direction : BitVec 32
  offset : Word
  size : Word
  val : Word

/-- The assertions of `ioreq_start`. -/
inductive StartAssertion where
  /-- `size <= sizeof(val)` -/
  | size
  /-- `ioack->callback == NULL` -/
  | callback
  deriving DecidableEq

/-- What became of a call. -/
inductive Outcome (σ : Type) where
  | returned (ret : ℤ) (s : σ)
  | aborted (a : StartAssertion)
  /-- the words are written through the NULL that `rpcmsg_lend_buffer` returned -/
  | nullWrite
  /-- it waits for other producers -/
  | waiting

/-- The same outcome in a larger state. -/
def Outcome.lift {σ ρ : Type} (f : σ → ρ) : Outcome σ → Outcome ρ
  | .returned ret s => .returned ret (f s)
  | .aborted a => .aborted a
  | .nullWrite => .nullWrite
  | .waiting => .waiting

/-! ### The code -/

/-- `vso_doorbell`. -/
def vsoDoorbell (rpc : VsoRpc) : ℤ × VsoRpc :=
  if rpc.doorbell then (0, { rpc with rings := rpc.rings + 1 }) else (-1, rpc)

/-- The words of a message. -/
def rpcMsg (w0 w1 w2 w3 : Word) : RpcMsg
  | 0 => w0
  | 1 => w1
  | 2 => w2
  | 3 => w3

/-- `driver_rpc_request`. -/
def driverRpcRequest (v : CasVariant) (rpc : VsoRpc) (op w0 w1 w2 w3 : Word) : Outcome VsoRpc :=
  match rpcmsgRequest v rpc.bufferState rpc.request rpc.buffer
      (rpcMsg (bitFieldSet w0 rpcMr0Op op) w1 w2 w3) with
  | .nullWrite => .nullWrite
  | .waiting => .waiting
  | .done err state q buf =>
      let rpc' := { rpc with bufferState := state, request := q, buffer := buf }
      if err < 0 then .returned err rpc'
      else .returned (vsoDoorbell rpc').1 (vsoDoorbell rpc').2

/-- `driver_rpc_req_mmio_start`. -/
def driverRpcReqMmioStart (v : CasVariant) (rpc : VsoRpc) (direction addrSpace slot : BitVec 32)
    (addr len data : Word) : Outcome VsoRpc :=
  let w := bitFieldSet 0#64 rpcMr0MmioDirection (direction.setWidth 64)
  let w := bitFieldSet w rpcMr0MmioAddrSpace (addrSpace.setWidth 64)
  let w := bitFieldSet w rpcMr0MmioLength len
  let w := bitFieldSet w rpcMr0MmioSlot (slot.setWidth 64)
  driverRpcRequest v rpc qemuOpMmio w addr data 0#64

variable {F C : Type}

/-- What `ioreq_start` files. -/
def StartArgs.ioack (a : StartArgs F C) : Ioack F C where
  callback := if a.direction.setWidth 64 = sel4IoDirRead then a.ioackRead else a.ioackWrite
  cookie := a.cookie

/-- The entry of a slot changes. -/
def IoProxy.setIoack (w : IoProxy F C) (slot : Slot) (e : Ioack F C) : IoProxy F C :=
  { w with ioacks := Function.update w.ioacks slot e }

@[simp] theorem IoProxy.setIoack_self (w : IoProxy F C) (slot : Slot) (e : Ioack F C) :
    (w.setIoack slot e).ioacks slot = e := by
  simp only [IoProxy.setIoack, Function.update_self]

/-- `ioreq_start`. -/
def ioreqStart (v : CasVariant) (w : IoProxy F C) (slot : BitVec 32) (a : StartArgs F C) :
    Outcome (IoProxy F C) :=
  if ¬ a.size.toNat ≤ 8 then .aborted .size
  else if h : ioacksSize ≤ slot.toNat then .returned (-1) w
  else
    let i : Slot := ⟨slot.toNat, Nat.lt_of_not_le h⟩
    if (w.ioacks i).callback.isSome then .aborted .callback
    else
      (driverRpcReqMmioStart v w.rpc a.direction a.addrSpace slot a.offset a.size a.val).lift
        fun rpc' => { w.setIoack i a.ioack with rpc := rpc' }

/-- `ioreq_native_t::slot` of the calling thread, 0 before it has one, and `free_native_slot`. -/
structure NativeSlots where
  slot : ℕ
  freeNativeSlot : ℕ

/-- `ioreq_native_slot`; `semErr` is what `sync_sem_new` returns. -/
def ioreqNativeSlot (semErr : ℤ) (s : NativeSlots) : ℤ × NativeSlots :=
  if s.slot ≠ 0 then (s.slot, s)
  else if semErr ≠ 0 then (-1, s)
  else if ioacksSize ≤ s.freeNativeSlot then (-1, s)
  else (s.freeNativeSlot, ⟨s.freeNativeSlot, s.freeNativeSlot + 1⟩)

/-- The arguments of `ioreq_native` beyond the backend. -/
structure NativeReq where
  addrSpace : BitVec 32
  direction : BitVec 32
  addr : Word
  size : Word
  value : Word

/-- What `ioreq_native` passes to `ioreq_start`; `native` is the thread's `ioreq_native_data`. -/
def NativeReq.startArgs (r : NativeReq) (native : C) : StartArgs IoackFn C where
  ioackRead := some .ioackNativeRead
  ioackWrite := some .ioackNativeWrite
  cookie := some native
  addrSpace := r.addrSpace
  direction := r.direction
  offset := r.addr
  size := r.size
  val := r.value

/-- `ioreq_native` up to `ioreq_native_wait`, which returns 0 once the callback has run. -/
def ioreqNative (v : CasVariant) (semErr : ℤ) (s : NativeSlots) (native : C)
    (w : IoProxy IoackFn C) (r : NativeReq) : Outcome (IoProxy IoackFn C × NativeSlots) :=
  let slot := (ioreqNativeSlot semErr s).1
  let s' := (ioreqNativeSlot semErr s).2
  if slot < 0 then .returned (-1) (w, s')
  else
    match ioreqStart v w (BitVec.ofInt 32 slot) (r.startArgs native) with
    | .returned err w' => if err < 0 then .returned (-1) (w', s') else .returned 0 (w', s')
    | .aborted e => .aborted e
    | .nullWrite => .nullWrite
    | .waiting => .waiting

/-! ### What a call leaves behind -/

/-- `rpcmsg_request` comes back: a buffer is free, and no more than `RPCMSG_HTD_MAX` producers are
ahead. -/
def VsoRpc.Returns (rpc : VsoRpc) : Prop :=
  (∃ id, ¬ Lent rpc.bufferState id) ∧ ¬ TooFar rpc.request.prod rpc.request.prod.tail

/-- The producers see no free entry. -/
def VsoRpc.Full (rpc : VsoRpc) : Prop := entries .prod rpc.request rpc.request.prod.tail = 0#32

/-- A message was lent and put into the request queue. -/
def VsoRpc.sent (rpc : VsoRpc) (id : Fin rpcmsgBufferSize) (buf : RpcMsgBuffer) : VsoRpc :=
  { rpc with
    bufferState := setBit id rpc.bufferState
    request := rpc.request.pushed id
    buffer := buf }

/-- What became of a request, and why. -/
inductive Requests (rpc : VsoRpc) : Outcome VsoRpc → Prop
  | nullWrite : ¬ rpc.Returns → Requests rpc .nullWrite
  | waiting : ¬ rpc.Returns → Requests rpc .waiting
  | refused (buf : RpcMsgBuffer) : rpc.Returns → rpc.Full →
      Requests rpc (.returned (-1) { rpc with buffer := buf })
  | silent (id : Fin rpcmsgBufferSize) (buf : RpcMsgBuffer) : rpc.Returns → ¬ rpc.Full →
      rpc.doorbell = false → Requests rpc (.returned (-1) (rpc.sent id buf))
  | made (id : Fin rpcmsgBufferSize) (buf : RpcMsgBuffer) : rpc.Returns → ¬ rpc.Full →
      rpc.doorbell = true →
      Requests rpc (.returned 0 { rpc.sent id buf with rings := rpc.rings + 1 })

theorem vsoDoorbell_unset {rpc : VsoRpc} (h : rpc.doorbell = false) :
    vsoDoorbell rpc = (-1, rpc) := by
  simp [vsoDoorbell, h]

theorem vsoDoorbell_set {rpc : VsoRpc} (h : rpc.doorbell = true) :
    vsoDoorbell rpc = (0, { rpc with rings := rpc.rings + 1 }) := by
  simp [vsoDoorbell, h]

theorem driverRpcRequest_requests {rpc : VsoRpc} (h : CoversBuffers rpc.bufferState)
    (v : CasVariant) (op w0 w1 w2 w3 : Word) :
    Requests rpc (driverRpcRequest v rpc op w0 w1 w2 w3) := by
  cases hscan : lendScan rpc.bufferState with
  | none =>
      have hall := lent_of_lendScan_none h hscan
      simp only [driverRpcRequest, request_of_all_lent h hall]
      refine .nullWrite ?_
      rintro ⟨⟨id, hfree⟩, -⟩
      exact hfree (hall id)
  | some id =>
      have hfree := not_lent_of_lendScan h hscan
      by_cases hfar : TooFar rpc.request.prod rpc.request.prod.tail
      · simp only [driverRpcRequest, request_waits hscan hfar]
        exact .waiting fun hret => hret.2 hfar
      · have hret : rpc.Returns := ⟨⟨id, hfree⟩, hfar⟩
        by_cases hzero : entries .prod rpc.request rpc.request.prod.tail = 0#32
        · have hneg : (-1 : ℤ) < 0 := by decide
          simp only [driverRpcRequest, request_refused h hscan hfar hzero, if_pos hneg]
          exact .refused _ hret hzero
        · have hid : ¬ ((id : ℕ) : ℤ) < 0 := by omega
          simp only [driverRpcRequest, request_made hscan hfar hzero, if_neg hid]
          cases hbell : rpc.doorbell with
          | false =>
              rw [vsoDoorbell_unset rfl]
              exact hbell ▸ .silent id _ hret hzero hbell
          | true =>
              rw [vsoDoorbell_set rfl]
              exact hbell ▸ .made id _ hret hzero hbell

/-- What became of a call of `ioreq_start`, and why. -/
inductive Starts (w : IoProxy F C) (slot : BitVec 32) (a : StartArgs F C) :
    Outcome (IoProxy F C) → Prop
  | size : ¬ a.size.toNat ≤ 8 → Starts w slot a (.aborted .size)
  | noSlot : a.size.toNat ≤ 8 → ioacksSize ≤ slot.toNat → Starts w slot a (.returned (-1) w)
  | pending (i : Slot) : a.size.toNat ≤ 8 → (i : ℕ) = slot.toNat →
      (w.ioacks i).callback.isSome → Starts w slot a (.aborted .callback)
  | requested (i : Slot) (out : Outcome VsoRpc) : a.size.toNat ≤ 8 → (i : ℕ) = slot.toNat →
      (w.ioacks i).callback = none → Requests w.rpc out →
      Starts w slot a (out.lift fun rpc' => { w.setIoack i a.ioack with rpc := rpc' })

theorem ioreqStart_starts {w : IoProxy F C} (h : CoversBuffers w.rpc.bufferState) (v : CasVariant)
    (slot : BitVec 32) (a : StartArgs F C) : Starts w slot a (ioreqStart v w slot a) := by
  unfold ioreqStart
  split
  · rename_i hsize
    exact .size hsize
  · rename_i hsize
    have hle : a.size.toNat ≤ 8 := not_not.mp hsize
    split
    · rename_i hslot
      exact .noSlot hle hslot
    · dsimp only
      split
      · rename_i hcall
        exact .pending _ hle rfl hcall
      · rename_i hcall
        exact .requested _ _ hle rfl (Option.not_isSome_iff_eq_none.mp hcall)
          (driverRpcRequest_requests h v _ _ _ _ _)

/-- The slot's callback is NULL, if there is such a slot. -/
def SlotFree (w : IoProxy F C) (slot : BitVec 32) : Prop :=
  ∀ i : Slot, (i : ℕ) = slot.toNat → (w.ioacks i).callback = none

/-- On a free slot no request fails the assertion about the callback. -/
theorem ioreqStart_ne_aborted {w : IoProxy F C} (h : CoversBuffers w.rpc.bufferState)
    {slot : BitVec 32} (hfree : SlotFree w slot) (v : CasVariant) (a : StartArgs F C) :
    ioreqStart v w slot a ≠ .aborted .callback := by
  have hstarts := ioreqStart_starts h v slot a
  generalize ioreqStart v w slot a = out at hstarts
  intro hout
  cases hstarts with
  | size _ => cases hout
  | noSlot _ _ => cases hout
  | pending i _ hi hcall =>
      rw [hfree i hi] at hcall
      cases hcall
  | requested i out _ _ _ hreq =>
      cases hreq with
      | _ => cases hout

/-- Slot table, buffer state and request queue are those of another state. -/
structure SameTables (w w' : IoProxy F C) : Prop where
  ioacks : w'.ioacks = w.ioacks
  bufferState : w'.rpc.bufferState = w.rpc.bufferState
  request : w'.rpc.request = w.rpc.request

/-- If the call failed, it changed nothing and the next request on the slot is accepted. -/
def UndoneIfFailed (v : CasVariant) (w : IoProxy F C) (slot : BitVec 32) :
    Outcome (IoProxy F C) → Prop
  | .returned ret w' => ret ≠ 0 →
      SameTables w w' ∧ ∀ a, ioreqStart v w' slot a ≠ .aborted .callback
  | _ => True

/-- The same of `ioreq_native`, for the slot it has. -/
def NativeUndoneIfFailed (v : CasVariant) (w : IoProxy IoackFn C) (slot : ℤ) :
    Outcome (IoProxy IoackFn C × NativeSlots) → Prop
  | .returned ret (w', _) => ret ≠ 0 →
      SameTables w w' ∧
        (0 ≤ slot → ∀ a, ioreqStart v w' (BitVec.ofInt 32 slot) a ≠ .aborted .callback)
  | _ => True

/-- The call files an entry and then fails: on a full queue with an entry that is new to the slot,
or without a doorbell once the message is in the queue. -/
def LeavesTraces (w : IoProxy F C) (slot : BitVec 32) (a : StartArgs F C) : Prop :=
  a.size.toNat ≤ 8 ∧ w.rpc.Returns ∧ ∃ i : Slot, (i : ℕ) = slot.toNat ∧
    (w.ioacks i).callback = none ∧
    ((w.rpc.Full ∧ a.ioack ≠ w.ioacks i) ∨ (¬ w.rpc.Full ∧ w.rpc.doorbell = false))

/-- A pushed queue is another queue. -/
theorem pushed_ne (q : Queue) (id : Fin rpcmsgBufferSize) : q.pushed id ≠ q := by
  intro h
  have hpos : q.prod.tail.pos + 1#32 = q.prod.tail.pos :=
    congrArg (fun q' : Queue => q'.prod.tail.pos) h
  bv_omega

section Start

variable {w : IoProxy F C} {slot : BitVec 32} {a : StartArgs F C}

/-- Filing an entry changes the table unless the slot holds it. -/
theorem setIoack_ioacks_iff (w : IoProxy F C) (i : Slot) (e : Ioack F C) :
    (w.setIoack i e).ioacks = w.ioacks ↔ e = w.ioacks i := by
  show Function.update w.ioacks i e = w.ioacks ↔ _
  rw [Function.update_eq_self_iff]

/-- The slot is free if its entry is. -/
theorem slotFree_of_eq {i : Slot} (hi : (i : ℕ) = slot.toNat)
    (hcall : (w.ioacks i).callback = none) : SlotFree w slot := by
  intro j hj
  have hji : j = i := Fin.ext (hj.trans hi.symm)
  rw [hji]
  exact hcall

/-- A state with the same table has the same free slots. -/
theorem SameTables.slotFree {w' : IoProxy F C} (hs : SameTables w w') (hfree : SlotFree w slot) :
    SlotFree w' slot := by
  intro i hi
  rw [hs.ioacks]
  exact hfree i hi

/-- What a call without traces leaves is free again for the next request. -/
theorem SameTables.accepts {w' : IoProxy F C} (hs : SameTables w w')
    (h : CoversBuffers w.rpc.bufferState) (hfree : SlotFree w slot) (v : CasVariant)
    (a : StartArgs F C) : ioreqStart v w' slot a ≠ .aborted .callback := by
  have hcovers : CoversBuffers w'.rpc.bufferState := by
    rw [hs.bufferState]
    exact h
  exact ioreqStart_ne_aborted hcovers (hs.slotFree hfree) v a

theorem sameTables_refl (w : IoProxy F C) : SameTables w w := ⟨rfl, rfl, rfl⟩

/-- **Failed calls.**  Of every state, slot and request: a failed `ioreq_start` changed nothing and
the slot stays usable, exactly when the call does not file an entry and then fail. -/
theorem ioreqStart_undone_iff (h : CoversBuffers w.rpc.bufferState) (v : CasVariant)
    (slot : BitVec 32) (a : StartArgs F C) :
    UndoneIfFailed v w slot (ioreqStart v w slot a) ↔ ¬ LeavesTraces w slot a := by
  have hstarts := ioreqStart_starts h v slot a
  generalize ioreqStart v w slot a = out at hstarts
  cases hstarts with
  | size hsize =>
      refine iff_of_true trivial ?_
      rintro ⟨hle, -⟩
      exact hsize hle
  | noSlot _ hslot =>
      have hnone : SlotFree w slot := by
        intro i hi
        have hlt := i.isLt
        omega
      have hsame : SameTables w w := sameTables_refl w
      refine iff_of_true (fun _ => ⟨hsame, hsame.accepts h hnone v⟩) ?_
      rintro ⟨-, -, i, hi, -⟩
      have hlt := i.isLt
      omega
  | pending i _ hi hcall =>
      refine iff_of_true trivial ?_
      rintro ⟨-, -, j, hj, hnone, -⟩
      have hji : j = i := Fin.ext (hj.trans hi.symm)
      rw [hji] at hnone
      rw [hnone] at hcall
      cases hcall
  | requested i out hsize hi hcall hreq =>
      have hfree : SlotFree w slot := slotFree_of_eq hi hcall
      cases hreq with
      | nullWrite hnot => exact iff_of_true trivial fun htrace => hnot htrace.2.1
      | waiting hnot => exact iff_of_true trivial fun htrace => hnot htrace.2.1
      | refused buf hret hfull =>
          constructor
          · rintro hundone ⟨-, -, j, hj, -, htrace⟩
            have hji : j = i := Fin.ext (hj.trans hi.symm)
            have hsame := (hundone (by decide)).1.ioacks
            rw [hji] at htrace
            rcases htrace with ⟨-, hnew⟩ | ⟨hnotfull, -⟩
            · exact hnew ((setIoack_ioacks_iff w i a.ioack).mp hsame)
            · exact hnotfull hfull
          · intro hno _
            have hsame : a.ioack = w.ioacks i := by
              by_contra hnew
              exact hno ⟨hsize, hret, i, hi, hcall, .inl ⟨hfull, hnew⟩⟩
            have htables : SameTables w
                { w.setIoack i a.ioack with rpc := { w.rpc with buffer := buf } } :=
              ⟨(setIoack_ioacks_iff w i a.ioack).mpr hsame, rfl, rfl⟩
            exact ⟨htables, htables.accepts h hfree v⟩
      | silent id buf hret hroom hbell =>
          refine iff_of_false ?_ ?_
          · intro hundone
            exact pushed_ne w.rpc.request id (hundone (by decide)).1.request
          · intro hno
            exact hno ⟨hsize, hret, i, hi, hcall, .inr ⟨hroom, hbell⟩⟩
      | made id buf hret hroom hbell =>
          refine iff_of_true (fun hzero => absurd rfl hzero) ?_
          rintro ⟨-, -, j, -, -, ⟨hfull, -⟩ | ⟨-, hunset⟩⟩
          · exact hroom hfull
          · rw [hbell] at hunset
            cases hunset

/-- **The blocked slot.**  On a full queue a call with a callback returns -1, and then every request
on the slot fails the assertion. -/
theorem refused_blocks_slot {i : Slot} (h : CoversBuffers w.rpc.bufferState) (v : CasVariant)
    (hsize : a.size.toNat ≤ 8) (hi : (i : ℕ) = slot.toNat) (hcall : (w.ioacks i).callback = none)
    (hret : w.rpc.Returns) (hfull : w.rpc.Full) (hsome : a.ioack.callback.isSome) :
    ∃ w', ioreqStart v w slot a = .returned (-1) w' ∧
      ∀ a' : StartArgs F C, a'.size.toNat ≤ 8 → ioreqStart v w' slot a' = .aborted .callback := by
  have hstarts := ioreqStart_starts h v slot a
  generalize ioreqStart v w slot a = out at hstarts
  cases hstarts with
  | size hnot => exact absurd hsize hnot
  | noSlot _ hslot =>
      have hlt : (i : ℕ) < ioacksSize := i.isLt
      omega
  | pending j _ hj hset =>
      have hji : j = i := Fin.ext (hj.trans hi.symm)
      rw [hji, hcall] at hset
      cases hset
  | requested j out _ hj _ hreq =>
      have hji : j = i := Fin.ext (hj.trans hi.symm)
      subst hji
      cases hreq with
      | nullWrite hnot => exact absurd hret hnot
      | waiting hnot => exact absurd hret hnot
      | silent _ _ _ hroom _ => exact absurd hfull hroom
      | made _ _ _ hroom _ => exact absurd hfull hroom
      | refused buf _ _ =>
          refine ⟨_, rfl, fun a' hsize' => ?_⟩
          have hlt : ¬ ioacksSize ≤ slot.toNat := by
            have hj' : (j : ℕ) < ioacksSize := j.isLt
            omega
          have hfiled : ((w.setIoack j a.ioack).ioacks ⟨slot.toNat, Nat.lt_of_not_le hlt⟩).callback
              = a.ioack.callback := by
            have hidx : (⟨slot.toNat, Nat.lt_of_not_le hlt⟩ : Slot) = j := Fin.ext hj.symm
            rw [hidx, IoProxy.setIoack_self]
          simp only [ioreqStart, not_not.mpr hsize', if_false, dif_neg hlt, hfiled, hsome, if_true]

/-- `ioreq_start` returns 0 or -1. -/
theorem Starts.ret {ret : ℤ} {w' : IoProxy F C} (hs : Starts w slot a (.returned ret w')) :
    ret = 0 ∨ ret = -1 := by
  generalize hout : Outcome.returned ret w' = out at hs
  cases hs with
  | size _ => cases hout
  | noSlot _ _ =>
      cases hout
      exact .inr rfl
  | pending _ _ _ _ => cases hout
  | requested i out _ _ _ hreq =>
      cases hreq with
      | nullWrite _ => cases hout
      | waiting _ => cases hout
      | refused _ _ _ =>
          cases hout
          exact .inr rfl
      | silent _ _ _ _ _ =>
          cases hout
          exact .inr rfl
      | made _ _ _ _ _ =>
          cases hout
          exact .inl rfl

end Start

section Native

variable {w : IoProxy IoackFn C} {semErr : ℤ} {s : NativeSlots}

/-- With a slot, `ioreq_native` fails as `ioreq_start` does. -/
theorem ioreqNative_iff_ioreqStart (h : CoversBuffers w.rpc.bufferState) (v : CasVariant)
    (hslot : 0 ≤ (ioreqNativeSlot semErr s).1) (native : C) (r : NativeReq) :
    NativeUndoneIfFailed v w (ioreqNativeSlot semErr s).1 (ioreqNative v semErr s native w r) ↔
      UndoneIfFailed v w (BitVec.ofInt 32 (ioreqNativeSlot semErr s).1)
        (ioreqStart v w (BitVec.ofInt 32 (ioreqNativeSlot semErr s).1) (r.startArgs native)) := by
  have hstarts := ioreqStart_starts h v (BitVec.ofInt 32 (ioreqNativeSlot semErr s).1)
    (r.startArgs native)
  simp only [ioreqNative, if_neg (Int.not_lt.mpr hslot)]
  cases hout : ioreqStart v w (BitVec.ofInt 32 (ioreqNativeSlot semErr s).1)
      (r.startArgs native) with
  | aborted e => exact Iff.rfl
  | nullWrite => exact Iff.rfl
  | waiting => exact Iff.rfl
  | returned ret w' =>
      rw [hout] at hstarts
      rcases hstarts.ret with rfl | rfl
      · exact iff_of_true (fun hzero => absurd rfl hzero) (fun hzero => absurd rfl hzero)
      · constructor
        · intro hundone hne
          exact ⟨(hundone hne).1, (hundone hne).2 hslot⟩
        · intro hundone hne
          exact ⟨(hundone hne).1, fun _ => (hundone hne).2⟩

theorem ioreqNative_undone_iff (h : CoversBuffers w.rpc.bufferState) (v : CasVariant) (semErr : ℤ)
    (s : NativeSlots) (native : C) (r : NativeReq) :
    NativeUndoneIfFailed v w (ioreqNativeSlot semErr s).1 (ioreqNative v semErr s native w r) ↔
      ¬ (0 ≤ (ioreqNativeSlot semErr s).1 ∧
        LeavesTraces w (BitVec.ofInt 32 (ioreqNativeSlot semErr s).1) (r.startArgs native)) := by
  by_cases hslot : 0 ≤ (ioreqNativeSlot semErr s).1
  · rw [ioreqNative_iff_ioreqStart h v hslot, ioreqStart_undone_iff h]
    constructor
    · intro hno hboth
      exact hno hboth.2
    · intro hno htrace
      exact hno ⟨hslot, htrace⟩
  · simp only [ioreqNative, if_pos (Int.not_le.mp hslot)]
    refine iff_of_true (fun _ => ⟨sameTables_refl w, fun hle => absurd hle hslot⟩) ?_
    intro hboth
    exact hslot hboth.1

end Native

/-- **Failed calls.**  Of every state, slot and request: a failed `ioreq_start` or `ioreq_native`
changed nothing, and the slot accepts the next request, exactly when the call does not file an entry
and then fail. -/
theorem start_undone_iff (v : CasVariant) (F C : Type) :
    (∀ (w : IoProxy F C) (slot : BitVec 32) (a : StartArgs F C),
      CoversBuffers w.rpc.bufferState →
      (UndoneIfFailed v w slot (ioreqStart v w slot a) ↔ ¬ LeavesTraces w slot a)) ∧
    (∀ (w : IoProxy IoackFn C) (semErr : ℤ) (s : NativeSlots) (native : C) (r : NativeReq),
      CoversBuffers w.rpc.bufferState →
      (NativeUndoneIfFailed v w (ioreqNativeSlot semErr s).1 (ioreqNative v semErr s native w r) ↔
        ¬ (0 ≤ (ioreqNativeSlot semErr s).1 ∧
          LeavesTraces w (BitVec.ofInt 32 (ioreqNativeSlot semErr s).1) (r.startArgs native)))) :=
  ⟨fun _ slot a h => ioreqStart_undone_iff h v slot a,
    fun _ semErr s native r h => ioreqNative_undone_iff h v semErr s native r⟩

/-- 32 messages are queued, no buffer is lent and no callback filed. -/
def fullProxy : IoProxy IoackFn Slot where
  ioacks _ := ⟨none, none⟩
  rpc :=
    { request := { rpcmsgQueueInit with prod := ⟨⟨32#32, 32#32⟩, ⟨32#32, 32#32⟩⟩ }
      buffer := rpcmsgBufferInit
      bufferState := rpcmsgBufferStateInit
      doorbell := true
      rings := 0 }

/-- A read of 4 bytes by the vCPU of slot 3. -/
def vcpuRead : StartArgs IoackFn Slot where
  ioackRead := some .ioackVcpuRead
  ioackWrite := some .ioackVcpuWrite
  cookie := some 3
  addrSpace := 0xff#32
  direction := 0#32
  offset := 0x1000#64
  size := 4#64
  val := 0#64

/-- A request in slot 40 of a full queue. -/
theorem start_undone_iff_noSlot :
    UndoneIfFailed .user fullProxy 40#32 (ioreqStart .user fullProxy 40#32 vcpuRead) := by
  rw [(start_undone_iff .user IoackFn Slot).1 fullProxy 40#32 vcpuRead coversBuffers_init]
  rintro ⟨-, -, i, hi, -⟩
  have hlt : (i : ℕ) < 32 := i.isLt
  have hslot : (40#32).toNat = 40 := rfl
  omega

/-- The queue is full: `ioreq_start` returns -1 and leaves the callback in the slot, and the next
request on the slot fails the assertion. -/
theorem start_left_behind :
    ¬ UndoneIfFailed .user fullProxy 3#32 (ioreqStart .user fullProxy 3#32 vcpuRead) ∧
      ∃ w', ioreqStart .user fullProxy 3#32 vcpuRead = .returned (-1) w' ∧
        ioreqStart .user w' 3#32 vcpuRead = .aborted .callback := by
  have hsize : vcpuRead.size.toNat ≤ 8 := by decide
  have hfull : fullProxy.rpc.Full := by
    show entries .prod fullProxy.rpc.request fullProxy.rpc.request.prod.tail = 0#32
    decide
  have hreturns : fullProxy.rpc.Returns := ⟨⟨0, not_lent_init 0⟩, by decide⟩
  constructor
  · rw [ioreqStart_undone_iff coversBuffers_init, not_not]
    refine ⟨hsize, hreturns, 3, rfl, rfl, .inl ⟨hfull, ?_⟩⟩
    intro hsame
    exact absurd (congrArg Ioack.callback hsame) (by decide)
  · have hblocks : ∃ w', ioreqStart .user fullProxy 3#32 vcpuRead = .returned (-1) w' ∧
        ∀ a : StartArgs IoackFn Slot, a.size.toNat ≤ 8 →
          ioreqStart .user w' 3#32 a = .aborted .callback :=
      refused_blocks_slot (i := 3) coversBuffers_init .user hsize rfl rfl hreturns hfull rfl
    obtain ⟨w', hret, hblocked⟩ := hblocks
    exact ⟨w', hret, hblocked vcpuRead hsize⟩

end TiiSel4Vm.Ioreq
