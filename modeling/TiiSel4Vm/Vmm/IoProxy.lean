import TiiSel4Vm.Rpc.Channel
import TiiSel4Vm.Rpc.Fields

/-!
# I/O requests of a backend

`ioreq_start` puts a callback into the slot of the requesting thread and sends an MMIO request; the
device answers requests in any order; the notification thread receives the responses in `rpc_run`,
and `ioreq_finish` runs the callback, which wakes the requester, and clears the slot.  There is one
requester for every slot.  The accesses to a slot, to the buffer state and to the message of a
request are steps of their own; a queue operation is one step.

Next to the code's state runs an observer's record: it numbers the requests as they start and notes
which request a message was lent for.  No step reads it.

* `startStep`, `requestStep`, `receiveStep`, `answerStep`, `notifyStep` — the steps of the parties;
* `Orderly` — the steps that neither start on a slot still to be cleared nor lend without a free
  message.
-/

namespace TiiSel4Vm.IoProxy

open TiiSel4Vm.Transition TiiSel4Vm.Ownership TiiSel4Vm.RpcQueue

/-! ### Slots, requests and callbacks -/

/-- `SEL4_MMIO_MAX_VCPU`. -/
abbrev sel4MmioMaxVcpu : ℕ := 16

/-- `SEL4_MMIO_NATIVE_BASE`. -/
abbrev sel4MmioNativeBase : ℕ := sel4MmioMaxVcpu

/-- `SEL4_MMIO_MAX_NATIVE`. -/
abbrev sel4MmioMaxNative : ℕ := 16

/-- `ARRAY_SIZE(io_proxy->ioacks)`. -/
abbrev ioacksSize : ℕ := sel4MmioMaxVcpu + sel4MmioMaxNative

/-- An entry of `ioacks`: those of the vCPUs come first. -/
abbrev Slot := Fin ioacksSize

/-- The functions an `ioack_fn_t` points to. -/
inductive IoackFn where
  | ioackVcpuRead
  | ioackVcpuWrite
  | ioackNativeRead
  | ioackNativeWrite
  deriving DecidableEq

/-- `ioack_t`.  A cookie points to the vCPU or the `ioreq_native_t` of a requester. -/
structure Ioack where
  callback : Option IoackFn
  cookie : Option Slot

/-- `SEL4_IO_DIR_READ`. -/
def sel4IoDirRead : Word := 0#64

/-- The arguments of `ioreq_start` beyond the slot and what follows from it.  It asserts that the
size is at most 8. -/
structure IoReq where
  direction : Word
  addrSpace : Word
  offset : Word
  size : Fin 9
  val : Word
  deriving DecidableEq

/-- The callback that `ioreq_start` stores: `mmio_fault_handler` passes the functions for a vCPU,
`ioreq_native` those for a native thread. -/
def ioackFor (slot : Slot) (direction : Word) : IoackFn :=
  if (slot : ℕ) < sel4MmioNativeBase then
    if direction = sel4IoDirRead then .ioackVcpuRead else .ioackVcpuWrite
  else if direction = sel4IoDirRead then .ioackNativeRead else .ioackNativeWrite

/-- The first word of the request. -/
def IoReq.mr0 (r : IoReq) (slot : Slot) : Word :=
  mmioMr0 r.direction r.addrSpace (BitVec.ofNat 64 slot) (BitVec.ofNat 64 r.size)

/-- The words of the request. -/
def IoReq.words (r : IoReq) (slot : Slot) : RpcMsg
  | 0 => r.mr0 slot
  | 1 => r.offset
  | 2 => r.val
  | 3 => 0#64

/-- What a callback leaves for its requester, if anything: `ioack_native_read` the data,
`ioack_vcpu_read` the data shifted to the place of the faulting address in its word. -/
def IoackFn.result (fn : IoackFn) (addr data : Word) : Option Word :=
  match fn with
  | .ioackVcpuRead => some (data <<< ((addr &&& 3#64) * 8#64).toNat)
  | .ioackVcpuWrite => none
  | .ioackNativeRead => some data
  | .ioackNativeWrite => none

/-! ### The parties -/

/-- Where a requester is. -/
inductive RequesterPc where
  | idle
  /-- the assertion of `ioreq_start` holds; before the store of the callback -/
  | checked
  /-- before the store of the cookie -/
  | storing
  /-- in `rpcmsg_lend_buffer`, before the scan -/
  | scanning
  /-- before the `set_bit` -/
  | marking (msg : Fin rpcmsgBufferSize)
  /-- in `rpcmsg_request`, before the words are written -/
  | writing (msg : Fin rpcmsgBufferSize)
  /-- before `rpcmsg_enqueue` -/
  | enqueuing (msg : Fin rpcmsgBufferSize)
  /-- before `vso_doorbell` -/
  | ringing
  /-- in `sync_sem_wait`, or a vCPU whose fault is not advanced -/
  | waiting
  /-- an assertion failed, or the words were written through NULL -/
  | aborted
  /-- `ioreq_start` returned an error -/
  | gaveUp
  deriving DecidableEq

/-- A requester. -/
structure Requester where
  pc : RequesterPc
  args : IoReq
  /-- posts of `handoff`, or advances of the fault, not yet taken -/
  signal : ℕ
  /-- what a callback left: `ioreq_native_t::value`, or the fault's data -/
  value : Word
  /-- the number of the request it has started and whose callback has not run -/
  live : Option ℕ

/-- Where the notification thread is in `rpc_run`. -/
inductive NotifierPc where
  | idle
  /-- `handle_mmio` has the message -/
  | checking (msg : Fin rpcmsgBufferSize)
  /-- the assertions of `ioreq_finish` hold; before it calls the callback -/
  | calling (msg : Fin rpcmsgBufferSize) (slot : Slot) (data : Word)
  /-- the callback has returned; before the slot is cleared -/
  | clearing (msg : Fin rpcmsgBufferSize) (slot : Slot)
  /-- before `rpcmsg_reclaim_buffer` -/
  | reclaiming (msg : Fin rpcmsgBufferSize)
  /-- an assertion failed -/
  | aborted
  /-- not an MMIO message, a slot past the table, or a call through what is no function -/
  | astray
  deriving DecidableEq

/-- A run of a callback. -/
structure Completion where
  serial : ℕ
  callback : IoackFn
  cookie : Slot
  data : Word

/-- A backend, its requesters and its record. -/
structure Proxy where
  ioacks : Slot → Ioack
  /-- `rpcmsg_buffer_state_t` -/
  state : Bitmap
  buffer : RpcMsgBuffer
  request : Queue
  response : Queue
  requester : Slot → Requester
  /-- the messages the device has received and not yet answered -/
  device : List (Fin rpcmsgBufferSize)
  notifier : NotifierPc
  /-- the requests so far -/
  started : List (Slot × IoReq)
  /-- the request a message was lent for last -/
  carries : Fin rpcmsgBufferSize → ℕ
  /-- the device's answer to a request -/
  answers : ℕ → Option Word
  completions : List Completion

def IoReq.zero : IoReq := ⟨0#64, 0#64, 0#64, 0, 0#64⟩

def Proxy.initial : Proxy where
  ioacks _ := ⟨none, none⟩
  state := rpcmsgBufferStateInit
  buffer := rpcmsgBufferInit
  request := rpcmsgQueueInit
  response := rpcmsgQueueInit
  requester _ := ⟨.idle, .zero, 0, 0#64, none⟩
  device := []
  notifier := .idle
  started := []
  carries _ := 0
  answers _ := none
  completions := []

inductive ProxyAct where
  /-- the requester of the slot calls `ioreq_start` -/
  | start (slot : Slot) (r : IoReq)
  /-- the requester of the slot makes its next step -/
  | request (slot : Slot)
  /-- the device receives a request -/
  | receive
  /-- the device calls `driver_rpc_ack_mmio_finish` on a message it received -/
  | answer (msg : Fin rpcmsgBufferSize) (data : Word)
  /-- the notification thread makes its next step in `rpc_run` -/
  | notify

/-! ### The steps -/

namespace Proxy

/-- The requester of a slot changes. -/
def setRequester (w : Proxy) (slot : Slot) (t : Requester) : Proxy :=
  { w with requester := Function.update w.requester slot t }

/-- A requester goes on. -/
def goto (w : Proxy) (slot : Slot) (pc : RequesterPc) : Proxy :=
  w.setRequester slot { w.requester slot with pc := pc }

/-- A slot of the table changes. -/
def setIoack (w : Proxy) (slot : Slot) (a : Ioack) : Proxy :=
  { w with ioacks := Function.update w.ioacks slot a }

/-- `callback(data, cookie)`, for the response `msg`. -/
def call (w : Proxy) (msg : Fin rpcmsgBufferSize) (fn : IoackFn) (cookie : Slot) (data : Word) :
    Proxy :=
  let t := w.requester cookie
  { w.setRequester cookie
      { t with value := (fn.result t.args.offset data).getD t.value
               signal := t.signal + 1
               live := none } with
    completions := w.completions ++ [⟨w.carries msg, fn, cookie, data⟩] }

end Proxy

/-- `ioreq_start` up to its assertion. -/
def startStep (w : Proxy) (slot : Slot) (r : IoReq) : Option Proxy :=
  if (w.requester slot).pc = .idle then
    some { w.setRequester slot
            { w.requester slot with
              pc := if (w.ioacks slot).callback = none then .checked else .aborted
              args := r
              live := some w.started.length } with
          started := w.started ++ [(slot, r)] }
  else none

/-- The next step of a requester. -/
def requestStep (v : CasVariant) (w : Proxy) (slot : Slot) : Option Proxy :=
  let t := w.requester slot
  match t.pc with
  | .checked =>
      some ((w.setIoack slot
        { w.ioacks slot with callback := some (ioackFor slot t.args.direction) }).goto slot
          .storing)
  | .storing =>
      some ((w.setIoack slot { w.ioacks slot with cookie := some slot }).goto slot .scanning)
  | .scanning =>
      match lendScan w.state with
      | none => some (w.goto slot .aborted)
      | some msg => some (w.goto slot (.marking msg))
  | .marking msg =>
      some { w.goto slot (.writing msg) with
              state := setBit msg w.state
              carries := Function.update w.carries msg (t.live.getD 0) }
  | .writing msg =>
      some { w.goto slot (.enqueuing msg) with
              buffer := Function.update w.buffer msg (t.args.words slot) }
  | .enqueuing msg =>
      (rpcmsgEnqueue v w.request w.buffer msg).map fun r =>
        if r.2.2.1 = 0 then { w.goto slot .ringing with request := r.1 }
        else { w.goto slot .gaveUp with request := r.1, state := rpcmsgReclaimBuffer w.state msg }
  | .ringing => some (w.goto slot .waiting)
  | .waiting =>
      if 0 < t.signal then
        some (w.setRequester slot { t with pc := .idle, signal := t.signal - 1 })
      else none
  | _ => none

/-- The device receives a request. -/
def receiveStep (v : CasVariant) (w : Proxy) : Option Proxy :=
  (rpcmsgReceive v w.request w.buffer).map fun r =>
    match r.2 with
    | some msg => { w with request := r.1, device := w.device ++ [msg] }
    | none => { w with request := r.1 }

/-- `driver_rpc_ack_mmio_finish`. -/
def answerStep (v : CasVariant) (w : Proxy) (msg : Fin rpcmsgBufferSize) (data : Word) :
    Option Proxy :=
  if w.device.contains msg then
    let buf := Function.update w.buffer msg (Function.update (w.buffer msg) mr2 data)
    (rpcmsgReply v w.response buf msg).map fun r =>
      { w with response := r.1, buffer := buf
               device := if r.2 = (0 : ℤ) then w.device.erase msg else w.device
               answers := Function.update w.answers (w.carries msg) (some data) }
  else none

/-- `handle_mmio` and `ioreq_finish` up to the call of the callback. -/
def handleMmio (w : Proxy) (msg : Fin rpcmsgBufferSize) : NotifierPc :=
  let slot := bitFieldGet (w.buffer msg mr0) rpcMr0MmioSlot
  if qemuOp (w.buffer msg mr0) ≠ qemuOpMmio then .astray
  else if ¬ slot.toNat ≤ ioacksSize then .aborted
  else if h : slot.toNat < ioacksSize then
    if (w.ioacks ⟨slot.toNat, h⟩).callback = none then .aborted
    else .calling msg ⟨slot.toNat, h⟩ (w.buffer msg mr2)
  else .astray

/-- The next step of the notification thread. -/
def notifyStep (v : CasVariant) (w : Proxy) : Option Proxy :=
  match w.notifier with
  | .idle =>
      (rpcmsgReceiveResponse v w.response w.buffer).map fun r =>
        match r.2 with
        | some (msg, _) => { w with response := r.1, notifier := .checking msg }
        | none => { w with response := r.1 }
  | .checking msg => some { w with notifier := handleMmio w msg }
  | .calling msg slot data =>
      match (w.ioacks slot).callback, (w.ioacks slot).cookie with
      | some fn, some cookie =>
          some { w.call msg fn cookie data with notifier := .clearing msg slot }
      | _, _ => some { w with notifier := .astray }
  | .clearing msg slot =>
      some { w.setIoack slot { w.ioacks slot with callback := none } with
              notifier := .reclaiming msg }
  | .reclaiming msg =>
      some { w with state := rpcmsgReclaimBuffer w.state msg, notifier := .idle }
  | _ => none

/-- One step; `v` is the build of the parties. -/
def proxyStep (v : CasVariant) (w : Proxy) : ProxyAct → Option Proxy
  | .start slot r => startStep w slot r
  | .request slot => requestStep v w slot
  | .receive => receiveStep v w
  | .answer msg data => answerStep v w msg data
  | .notify => notifyStep v w

/-- A backend under any order of steps. -/
def proxyLts (v : CasVariant) : Lts Proxy ProxyAct :=
  .ofFun (fun w => w = .initial) (proxyStep v)

/-- The slot whose callback has run and which is still to be cleared. -/
def NotifierPc.clears : NotifierPc → Option Slot
  | .clearing _ slot => some slot
  | _ => none

/-- A request does not start on a slot that is still to be cleared; a scan has a free message to
find; a `set_bit` finds its bit clear. -/
def Orderly (w : Proxy) : ProxyAct → Prop
  | .start slot _ => w.notifier.clears ≠ some slot
  | .request slot =>
      match (w.requester slot).pc with
      | .scanning => ∃ msg, ¬ Lent w.state msg
      | .marking msg => ¬ Lent w.state msg
      | _ => True
  | _ => True

instance (w : Proxy) (act : ProxyAct) : Decidable (Orderly w act) := by
  unfold Orderly
  split
  · infer_instance
  · split <;> infer_instance
  · infer_instance

/-- A backend when all steps are orderly. -/
def orderlyLts (v : CasVariant) : Lts Proxy ProxyAct := (proxyLts v).restrict Orderly

end TiiSel4Vm.IoProxy
