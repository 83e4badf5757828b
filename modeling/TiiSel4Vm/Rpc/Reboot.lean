import TiiSel4Vm.Rpc.Channel

/-!
# A channel after a reboot

The driver of a rebooted VM runs `vso_driver_rpc_init` on an iobuf and a `vso_driver_rpc_t` that
have been in use.  It clears the message table, the request queue and the response queue; it does
not touch the forward queue, nor the buffer state, which lies outside the iobuf.

* `Alike` — two channels that differ only in where their queues start in the ring and in bits of the
  buffer state that no message has; `Alike.step` says that no operation tells them apart;
* `FreshChannel` — what the channel is expected to be after the call;
* `driver_init_fresh_iff` — when it is.
-/

namespace TiiSel4Vm.RpcQueue

open TiiSel4Vm.Transition

/-! ### The shared memory and its initialisation -/

/-- `rpcmsg_iobuf_id_t`. -/
inductive RpcmsgIobufId where
  | drvrpc
  | devevt
  deriving DecidableEq

/-- `rpcmsg_queue_id_t`. -/
inductive RpcmsgQueueId where
  | drvrpcReq
  /-- kernel to user -/
  | drvrpcReqDev
  | drvrpcResp
  | devevt
  deriving DecidableEq

/-- `rpcmsg_iobuf_t`. -/
structure RpcmsgIobuf where
  buffers : RpcmsgIobufId → RpcMsgBuffer
  queues : RpcmsgQueueId → Queue

/-- `rpcmsg_rpc_queue_t`, for an iobuf: the table and the queue its fields point to. -/
structure RpcmsgRpcQueue where
  buffer : RpcmsgIobufId
  queue : RpcmsgQueueId

/-- `rpcmsg_buffer_state_t`. -/
abbrev RpcmsgBufferState :=
  {state : Bitmap // state.length = (rpcmsgBufferSize + nBits - 1) / nBits}

/-- `vso_driver_rpc_t`; a queue is `none` if its pointers are not into the iobuf. -/
structure VsoDriverRpc where
  request : Option RpcmsgRpcQueue
  response : Option RpcmsgRpcQueue
  bufferState : RpcmsgBufferState

/-- `vso_rpc_id_t`. -/
inductive VsoRpcId where
  | driver
  | deviceKm
  | device
  deriving DecidableEq

/-- `driver_drvrpc_req`. -/
def driverDrvrpcReq : RpcmsgRpcQueue := ⟨.drvrpc, .drvrpcReq⟩

/-- `driver_drvrpc_resp`. -/
def driverDrvrpcResp : RpcmsgRpcQueue := ⟨.drvrpc, .drvrpcResp⟩

/-- `device_km_drvrpc_req`. -/
def deviceKmDrvrpcReq : RpcmsgRpcQueue := ⟨.drvrpc, .drvrpcReq⟩

/-- `device_km_drvrpc_resp`. -/
def deviceKmDrvrpcResp : RpcmsgRpcQueue := ⟨.drvrpc, .drvrpcResp⟩

/-- `device_drvrpc_req`. -/
def deviceDrvrpcReq : RpcmsgRpcQueue := ⟨.drvrpc, .drvrpcReqDev⟩

/-- `device_drvrpc_resp`. -/
def deviceDrvrpcResp : RpcmsgRpcQueue := ⟨.drvrpc, .drvrpcResp⟩

namespace RpcmsgIobuf

/-- `rpcmsg_buffer_init` on a table of the iobuf. -/
def bufferInit (iobuf : RpcmsgIobuf) (id : RpcmsgIobufId) : RpcmsgIobuf :=
  { iobuf with buffers := Function.update iobuf.buffers id rpcmsgBufferInit }

/-- `rpcmsg_queue_init` on a queue of the iobuf. -/
def queueInit (iobuf : RpcmsgIobuf) (id : RpcmsgQueueId) : RpcmsgIobuf :=
  { iobuf with queues := Function.update iobuf.queues id rpcmsgQueueInit }

end RpcmsgIobuf

/-- `RPCMSG_F_INIT_BUFFER`. -/
abbrev rpcmsgFInitBuffer : BitVec 32 := 1#32

/-- `RPCMSG_F_INIT_QUEUE`. -/
abbrev rpcmsgFInitQueue : BitVec 32 := 2#32

/-- `RPCMSG_F_INIT_ALL`. -/
abbrev rpcmsgFInitAll : BitVec 32 := ~~~0#32

/-- `_rpcmsg_queue_init`. -/
def rpcmsgQueueInitFlags (ptr : RpcmsgRpcQueue) (flags : BitVec 32) (iobuf : RpcmsgIobuf) :
    RpcmsgIobuf :=
  let iobuf := if flags &&& rpcmsgFInitBuffer ≠ 0#32 then iobuf.bufferInit ptr.buffer else iobuf
  if flags &&& rpcmsgFInitQueue ≠ 0#32 then iobuf.queueInit ptr.queue else iobuf

/-- `rpcmsg_call_queue_init`. -/
def rpcmsgCallQueueInit (ptr : RpcmsgRpcQueue) : RpcmsgIobuf → RpcmsgIobuf :=
  rpcmsgQueueInitFlags ptr rpcmsgFInitAll

/-- `rpcmsg_reply_queue_init`. -/
def rpcmsgReplyQueueInit (ptr : RpcmsgRpcQueue) : RpcmsgIobuf → RpcmsgIobuf :=
  rpcmsgQueueInitFlags ptr rpcmsgFInitQueue

/-- `vso_driver_rpc_init`: the iobuf, the `vso_driver_rpc_t` and the result. -/
def vsoDriverRpcInit (id : VsoRpcId) (iobuf : RpcmsgIobuf) (drvrpc : VsoDriverRpc) :
    RpcmsgIobuf × VsoDriverRpc × ℤ :=
  match id with
  | .driver =>
      let request := driverDrvrpcReq
      let response := driverDrvrpcResp
      let iobuf := rpcmsgCallQueueInit request iobuf
      let iobuf := rpcmsgReplyQueueInit response iobuf
      let iobuf := iobuf.bufferInit request.buffer
      (iobuf, { drvrpc with request := some request, response := some response }, 0)
  | .deviceKm =>
      (iobuf, { drvrpc with request := some deviceKmDrvrpcReq
                            response := some deviceKmDrvrpcResp }, 0)
  | .device =>
      (iobuf, { drvrpc with request := some deviceDrvrpcReq
                            response := some deviceDrvrpcResp }, 0)

/-- The queues of a driver with these pointers; a user device part reads the forward queue. -/
def RpcmsgIobuf.links (iobuf : RpcmsgIobuf) (request response : RpcmsgRpcQueue) : Link → Queue
  | .request => iobuf.queues request.queue
  | .forward => iobuf.queues deviceDrvrpcReq.queue
  | .response => iobuf.queues response.queue

/-- The channel of a driver whose pointers are into the iobuf.  The parties start anew: nothing is
recorded and they hold no message. -/
def driverChannel (iobuf : RpcmsgIobuf) (drvrpc : VsoDriverRpc) : Option Channel :=
  match drvrpc.request, drvrpc.response with
  | some request, some response =>
      some { Channel.initial with
             state := drvrpc.bufferState
             buffer := iobuf.buffers request.buffer
             queue := iobuf.links request response }
  | _, _ => none

/-- The driver's channel after `vso_driver_rpc_init`. -/
def driverInit (iobuf : RpcmsgIobuf) (drvrpc : VsoDriverRpc) : Option Channel :=
  let r := vsoDriverRpcInit .driver iobuf drvrpc
  driverChannel r.1 r.2.1

/-- The queues after the call. -/
def RpcmsgIobuf.linksAfterInit (iobuf : RpcmsgIobuf) : Link → Queue
  | .request => rpcmsgQueueInit
  | .forward => iobuf.queues .drvrpcReqDev
  | .response => rpcmsgQueueInit

/-- The channel after the call: the buffer state and the forward queue are those from before. -/
def rebooted (iobuf : RpcmsgIobuf) (drvrpc : VsoDriverRpc) : Channel :=
  { Channel.initial with state := drvrpc.bufferState, queue := iobuf.linksAfterInit }

/-- **What the call leaves.** -/
theorem driverInit_eq (iobuf : RpcmsgIobuf) (drvrpc : VsoDriverRpc) :
    driverInit iobuf drvrpc = some (rebooted iobuf drvrpc) := by
  have hqueue : (vsoDriverRpcInit .driver iobuf drvrpc).1.links driverDrvrpcReq driverDrvrpcResp
      = iobuf.linksAfterInit := by
    funext l
    cases l <;> rfl
  rw [rebooted, ← hqueue]
  rfl

/-! ### Channels that no operation tells apart -/

/-- Two queues hold the same messages, and nothing is in progress. -/
def SameQueue (q q' : Queue) : Prop := ∃ k k' xs, Represents q k xs ∧ Represents q' k' xs

/-- Two buffer states mark the same messages. -/
structure SameState (state state' : Bitmap) : Prop where
  covers : CoversBuffers state
  covers' : CoversBuffers state'
  lent : ∀ id, Lent state id ↔ Lent state' id

theorem SameQueue.symm {q q' : Queue} (h : SameQueue q q') : SameQueue q' q := by
  obtain ⟨k, k', xs, hq, hq'⟩ := h
  exact ⟨k', k, xs, hq', hq⟩

theorem SameState.symm {state state' : Bitmap} (h : SameState state state') :
    SameState state' state :=
  ⟨h.covers', h.covers, fun id => (h.lent id).symm⟩

theorem SameQueue.contents {q q' : Queue} (h : SameQueue q q') : q.contents = q'.contents := by
  obtain ⟨k, k', xs, hq, hq'⟩ := h
  rw [hq.contents, hq'.contents]

section Operations

variable (v : CasVariant) {q q' : Queue} (buf : RpcMsgBuffer) {state state' : Bitmap}

theorem SameQueue.receive (h : SameQueue q q') :
    ∃ q₁ q₁' msg, rpcmsgReceive v q buf = some (q₁, msg) ∧
      rpcmsgReceive v q' buf = some (q₁', msg) ∧ SameQueue q₁ q₁' := by
  obtain ⟨k, k', xs, hq, hq'⟩ := h
  cases xs with
  | nil => exact ⟨q, q', none, receive_empty v buf hq, receive_empty v buf hq', k, k', [], hq, hq'⟩
  | cons msg xs =>
      obtain ⟨q₁, hreceive, hrep⟩ := receive_represents v buf hq
      obtain ⟨q₁', hreceive', hrep'⟩ := receive_represents v buf hq'
      exact ⟨q₁, q₁', some msg, hreceive, hreceive', k + 1, k' + 1, xs, hrep, hrep'⟩

theorem SameQueue.receiveResponse (h : SameQueue q q') :
    ∃ q₁ q₁' msg, rpcmsgReceiveResponse v q buf = some (q₁, msg) ∧
      rpcmsgReceiveResponse v q' buf = some (q₁', msg) ∧ SameQueue q₁ q₁' := by
  obtain ⟨k, k', xs, hq, hq'⟩ := h
  cases xs with
  | nil =>
      exact ⟨q, q', none, receiveResponse_empty v buf hq, receiveResponse_empty v buf hq',
        k, k', [], hq, hq'⟩
  | cons msg xs =>
      obtain ⟨q₁, hreceive, hrep⟩ := receiveResponse_represents v buf hq
      obtain ⟨q₁', hreceive', hrep'⟩ := receiveResponse_represents v buf hq'
      exact ⟨q₁, q₁', _, hreceive, hreceive', k + 1, k' + 1, xs, hrep, hrep'⟩

theorem SameQueue.enqueue (h : SameQueue q q') (msg : Fin rpcmsgBufferSize) :
    ∃ q₁ q₁' ret, rpcmsgEnqueue v q buf msg = some (q₁, buf, ret, .nothing) ∧
      rpcmsgEnqueue v q' buf msg = some (q₁', buf, ret, .nothing) ∧ SameQueue q₁ q₁' := by
  obtain ⟨k, k', xs, hq, hq'⟩ := h
  by_cases hfull : xs.length = rpcmsgBufferSize
  · exact ⟨q, q', -1, enqueue_full hq hfull, enqueue_full hq' hfull, k, k', xs, hq, hq'⟩
  · have hroom : xs.length < rpcmsgBufferSize := lt_of_le_of_ne hq.length_le hfull
    obtain ⟨q₁, henqueue, hrep⟩ := enqueue_represents v buf msg hq hroom
    obtain ⟨q₁', henqueue', hrep'⟩ := enqueue_represents v buf msg hq' hroom
    exact ⟨q₁, q₁', 0, henqueue, henqueue', k, k', _, hrep, hrep'⟩

/-- `rpcmsg_reply` and `rpcmsg_forward`. -/
theorem SameQueue.reply (h : SameQueue q q') (msg : Fin rpcmsgBufferSize) :
    ∃ q₁ q₁' ret, rpcmsgReply v q buf msg = some (q₁, ret) ∧
      rpcmsgReply v q' buf msg = some (q₁', ret) ∧ SameQueue q₁ q₁' := by
  obtain ⟨q₁, q₁', ret, henqueue, henqueue', hsame⟩ := h.enqueue v buf msg
  refine ⟨q₁, q₁', ret, ?_, ?_, hsame⟩
  · simp only [rpcmsgReply, henqueue, Option.map_some]
  · simp only [rpcmsgReply, henqueue', Option.map_some]

theorem findFirstZeroBit_le {addr : Bitmap} {size k : ℕ} (hcover : size ≤ nBits * addr.length)
    (hk : k ∉ bitSet addr) : findFirstZeroBit addr size ≤ k :=
  Nat.le_of_not_lt fun hlt => hk ((findFirstZeroBit_spec hcover).2.1 k hlt)

theorem SameState.first_le (h : SameState state state') :
    findFirstZeroBit state rpcmsgBufferSize ≤ findFirstZeroBit state' rpcmsgBufferSize := by
  obtain ⟨hle', -, hclear'⟩ := findFirstZeroBit_spec h.covers'
  rcases hle'.lt_or_eq with hlt | heq
  · refine findFirstZeroBit_le h.covers fun hset => hclear' hlt ?_
    exact (h.lent ⟨_, hlt⟩).mp hset
  · rw [heq]
    exact (findFirstZeroBit_spec h.covers).1

/-- The scan finds the same message. -/
theorem SameState.lendScan_eq (h : SameState state state') :
    lendScan state = lendScan state' := by
  have hsame : findFirstZeroBit state rpcmsgBufferSize = findFirstZeroBit state' rpcmsgBufferSize :=
    le_antisymm h.first_le h.symm.first_le
  simp only [lendScan, hsame]

theorem SameState.mark (h : SameState state state') (id : Fin rpcmsgBufferSize) :
    SameState (setBit id state) (setBit id state') := by
  refine ⟨h.covers.setBit _, h.covers'.setBit _, fun msg => ?_⟩
  rw [lent_setBit h.covers, lent_setBit h.covers', h.lent]

theorem SameState.reclaim (h : SameState state state') (msg : Fin rpcmsgBufferSize) :
    SameState (rpcmsgReclaimBuffer state msg) (rpcmsgReclaimBuffer state' msg) := by
  refine ⟨h.covers.reclaim _, h.covers'.reclaim _, fun id => ?_⟩
  rw [lent_reclaim h.covers, lent_reclaim h.covers', h.lent]

/-- A request has the same outcome on both, and leaves them alike. -/
theorem SameState.request (h : SameState state state') (hq : SameQueue q q') (words : RpcMsg)
    (hfree : ∃ id, ¬ Lent state id) :
    ∃ ret state₁ state₁' q₁ q₁' buf₁,
      rpcmsgRequest v state q buf words = .done ret state₁ q₁ buf₁ ∧
      rpcmsgRequest v state' q' buf words = .done ret state₁' q₁' buf₁ ∧
      SameState state₁ state₁' ∧ SameQueue q₁ q₁' := by
  cases hscan : lendScan state with
  | none =>
      obtain ⟨id, hid⟩ := hfree
      exact absurd (lent_of_lendScan_none h.covers hscan id) hid
  | some id =>
      have hscan' : lendScan state' = some id := h.lendScan_eq ▸ hscan
      obtain ⟨q₁, q₁', ret, henqueue, henqueue', hsame⟩ :=
        hq.enqueue v (Function.update buf id words) id
      by_cases hret : ret = 0
      · refine ⟨(rpcmsgMsgToId id).toNat, setBit id state, setBit id state', q₁, q₁',
          Function.update buf id words, ?_, ?_, h.mark id, hsame⟩
        · simp only [rpcmsgRequest, rpcmsgLendBuffer, hscan, henqueue, if_pos hret]
        · simp only [rpcmsgRequest, rpcmsgLendBuffer, hscan', henqueue', if_pos hret]
      · refine ⟨-1, rpcmsgReclaimBuffer (setBit id state) id,
          rpcmsgReclaimBuffer (setBit id state') id, q₁, q₁', Function.update buf id words,
          ?_, ?_, (h.mark id).reclaim id, hsame⟩
        · simp only [rpcmsgRequest, rpcmsgLendBuffer, hscan, henqueue, if_neg hret]
        · simp only [rpcmsgRequest, rpcmsgLendBuffer, hscan', henqueue', if_neg hret]

end Operations

/-- The second channel differs from the first one only in how its queues and its buffer state
represent the same messages. -/
inductive Alike (c : Channel) : Channel → Prop
  | intro {state : Bitmap} {queue : Link → Queue} (hstate : SameState c.state state)
      (hqueue : ∀ l, SameQueue (c.queue l) (queue l)) :
      Alike c { c with state := state, queue := queue }

section Alike

variable {variant : Party → CasVariant} {c c' d : Channel} {l : Link} {p : Party}

theorem Alike.symm (h : Alike c d) : Alike d c := by
  cases h with
  | intro hstate hqueue => exact .intro hstate.symm fun l => (hqueue l).symm

/-- One queue of each is replaced. -/
theorem sameQueue_update {queue queue' : Link → Queue} (h : ∀ l, SameQueue (queue l) (queue' l))
    {q q' : Queue} (hq : SameQueue q q') (l' : Link) :
    SameQueue (Function.update queue l q l') (Function.update queue' l q' l') := by
  by_cases hl : l' = l
  · subst hl
    rw [Function.update_self, Function.update_self]
    exact hq
  · rw [Function.update_of_ne hl, Function.update_of_ne hl]
    exact h l'

theorem alike_dispatch {state : Bitmap} {queue : Link → Queue} (hstate : SameState c.state state)
    (hqueue : ∀ l, SameQueue (c.queue l) (queue l)) (t : Ticket) {q q' : Queue} (ret : ℤ)
    (hq : SameQueue q q') :
    Alike (c.dispatch l p t (q, ret))
      ({ c with state := state, queue := queue }.dispatch l p t (q', ret)) := by
  by_cases hret : ret = 0
  · simp only [Channel.dispatch, if_pos hret]
    exact .intro hstate (sameQueue_update hqueue hq)
  · simp only [Channel.dispatch, if_neg hret]
    exact .intro hstate (sameQueue_update hqueue hq)

/-- A device part receives from a queue. -/
theorem alike_receive {state : Bitmap} {queue : Link → Queue} (hstate : SameState c.state state)
    (hqueue : ∀ l, SameQueue (c.queue l) (queue l)) {v : CasVariant}
    {r : Queue × Option (Fin rpcmsgBufferSize)}
    (hr : rpcmsgReceive v (c.queue l) c.buffer = some r) :
    ∃ d', ((rpcmsgReceive v (queue l) c.buffer).map fun r =>
        match r.2 with
        | some msg => { c with state := state, queue := queue }.accept l p r.1 msg
        | none => { c with state := state, queue := Function.update queue l r.1 }) = some d' ∧
      Alike
        (match r.2 with
          | some msg => c.accept l p r.1 msg
          | none => { c with queue := Function.update c.queue l r.1 }) d' := by
  obtain ⟨q, q', msg, hreceive, hreceive', hq⟩ := (hqueue l).receive v c.buffer
  rw [hreceive] at hr
  cases hr
  rw [hreceive', Option.map_some]
  cases msg with
  | none => exact ⟨_, rfl, .intro hstate (sameQueue_update hqueue hq)⟩
  | some msg => exact ⟨_, rfl, .intro hstate (sameQueue_update hqueue hq)⟩

/-- **The step lemma.**  A step of the one is matched by the other. -/
theorem Alike.step {act : ChannelAct} (h : Alike c d) (hs : channelStep variant c act = some c') :
    ∃ d', channelStep variant d act = some d' ∧ Alike c' d' := by
  obtain ⟨hstate, hqueue⟩ := h
  cases act with
  | request words =>
      simp only [channelStep] at hs ⊢
      split at hs
      · rename_i hfree
        obtain ⟨ret, s₁, s₁', q₁, q₁', buf₁, hreq, hreq', hstate₁, hq₁⟩ :=
          hstate.request (variant .driver) c.buffer (hqueue .request) words hfree
        have hfree' : ∃ id, ¬ Lent _ id := hfree.imp fun id => mt (hstate.lent id).mpr
        rw [if_pos hfree', hreq']
        rw [hreq] at hs
        dsimp only at hs ⊢
        by_cases hret : 0 ≤ ret
        · rw [if_pos hret] at hs ⊢
          cases hs
          exact ⟨_, rfl, .intro hstate₁ (sameQueue_update hqueue hq₁)⟩
        · rw [if_neg hret] at hs ⊢
          cases hs
          exact ⟨_, rfl, .intro hstate₁ (sameQueue_update hqueue hq₁)⟩
      · cases hs
  | receive =>
      obtain ⟨r, hr, rfl⟩ := Option.map_eq_some_iff.mp hs
      exact alike_receive hstate hqueue hr
  | receiveForwarded =>
      obtain ⟨r, hr, rfl⟩ := Option.map_eq_some_iff.mp hs
      exact alike_receive hstate hqueue hr
  | receiveResponse =>
      obtain ⟨q₁, q₁', msg, hreceive, hreceive', hq₁⟩ :=
        (hqueue .response).receiveResponse (variant .driver) c.buffer
      simp only [channelStep, hreceive, hreceive', Option.map_some, Option.some.injEq] at hs ⊢
      subst hs
      cases msg with
      | none => exact ⟨_, rfl, .intro hstate (sameQueue_update hqueue hq₁)⟩
      | some msg => exact ⟨_, rfl, .intro hstate (sameQueue_update hqueue hq₁)⟩
  | forward t =>
      obtain ⟨q₁, q₁', ret, hsend, hsend', hq₁⟩ :=
        (hqueue .forward).reply (variant .kernel) c.buffer t.id
      simp only [channelStep] at hs ⊢
      split at hs
      · rename_i ht
        rw [show rpcmsgForward _ _ _ _ = _ from hsend] at hs
        cases hs
        rw [if_pos ht, show rpcmsgForward _ _ _ _ = _ from hsend']
        exact ⟨_, rfl, alike_dispatch hstate hqueue t ret hq₁⟩
      · cases hs
  | reply p t =>
      obtain ⟨q₁, q₁', ret, hsend, hsend', hq₁⟩ :=
        (hqueue .response).reply (variant p) c.buffer t.id
      simp only [channelStep] at hs ⊢
      split at hs
      · rename_i ht
        rw [hsend] at hs
        cases hs
        rw [if_pos ht, hsend']
        exact ⟨_, rfl, alike_dispatch hstate hqueue t ret hq₁⟩
      · cases hs
  | write p t words =>
      simp only [channelStep] at hs ⊢
      split at hs
      · rename_i ht
        cases hs
        rw [if_pos ht]
        exact ⟨_, rfl, .intro hstate hqueue⟩
      · cases hs
  | reclaim t =>
      simp only [channelStep] at hs ⊢
      split at hs
      · rename_i ht
        cases hs
        rw [if_pos ht]
        exact ⟨_, rfl, .intro (hstate.reclaim t.id) hqueue⟩
      · cases hs

/-- A run of the one is matched by a run of the other. -/
theorem Alike.run {acts : List ChannelAct} (h : Alike c d)
    (hrun : (channelLts variant).Run c acts c') :
    ∃ d', (channelLts variant).Run d acts d' ∧ Alike c' d' :=
  hrun.simulate (fun _ _ _ _ h hs => h.step hs) h

end Alike

/-! ### A fresh channel -/

/-- What there is to see of a channel: the marked messages, the words, what is queued and held, and
the record. -/
structure Channel.View where
  lent : Set (Fin rpcmsgBufferSize)
  buffer : RpcMsgBuffer
  contents : Link → List (BitVec 16)
  hand : Party → List Ticket
  serials : Link → List ℕ
  requests : List (ℤ × RpcMsg)
  written : ℕ → RpcMsg
  responses : List Response

def Channel.view (c : Channel) : Channel.View where
  lent := {id | Lent c.state id}
  buffer := c.buffer
  contents l := (c.queue l).contents
  hand := c.hand
  serials := c.serials
  requests := c.requests
  written := c.written
  responses := c.responses

/-- A message is marked lent exactly when it is in circulation. -/
def Channel.LendsExactly (c : Channel) : Prop :=
  ∀ id, Lent c.state id ↔ ∃ P, rpcmsgMsgToId id ∈ c.holds P

/-- The channel is in its initial state, and stays like one that started there. -/
structure FreshChannel (c : Channel) : Prop where
  empty : ∀ l, ∃ k, Represents (c.queue l) k []
  zero : ∀ msg word, c.buffer msg word = 0#64
  free : ∀ id, ¬ Lent c.state id
  lendsExactly : ∀ variant acts c', (channelLts variant).Run c acts c' → c'.LendsExactly
  /-- the same sequences of steps can be made, and the same is seen after each -/
  runs : ∀ variant acts view, (∃ c', (channelLts variant).Run c acts c' ∧ c'.view = view) ↔
    ∃ c', (channelLts variant).Run .initial acts c' ∧ c'.view = view

section FreshChannels

variable {variant : Party → CasVariant} {c d : Channel}

theorem Alike.contents_eq (h : Alike c d) (l : Link) :
    (c.queue l).contents = (d.queue l).contents := by
  obtain ⟨-, hqueue⟩ := h
  exact (hqueue l).contents

theorem Alike.lent_iff (h : Alike c d) (id : Fin rpcmsgBufferSize) :
    Lent c.state id ↔ Lent d.state id := by
  obtain ⟨hstate, -⟩ := h
  exact hstate.lent id

theorem Alike.view_eq (h : Alike c d) : c.view = d.view := by
  have hlent : {id | Lent c.state id} = {id | Lent d.state id} := Set.ext h.lent_iff
  have hcontents : (fun l => (c.queue l).contents) = fun l => (d.queue l).contents :=
    funext h.contents_eq
  obtain ⟨-, -⟩ := h
  simp only [Channel.view, hlent, hcontents]

theorem Alike.holds_eq (h : Alike c d) (P : Place) : c.holds P = d.holds P := by
  cases P with
  | queue l => exact h.contents_eq l
  | hand p =>
      obtain ⟨-, -⟩ := h
      rfl

theorem Alike.lendsExactly (h : Alike c d) (hd : d.LendsExactly) : c.LendsExactly := by
  intro id
  rw [h.lent_iff, hd id]
  simp only [h.holds_eq]

/-- Nothing was queued for the user part and nothing was lent before the call. -/
theorem alike_initial {iobuf : RpcmsgIobuf} {drvrpc : VsoDriverRpc} {k : ℕ}
    (hforward : Represents (iobuf.queues .drvrpcReqDev) k [])
    (hfree : ∀ id, ¬ Lent drvrpc.bufferState id) :
    Alike .initial (rebooted iobuf drvrpc) := by
  refine .intro ⟨coversBuffers_init, ?_, fun id => ?_⟩ fun l => ?_
  · rw [CoversBuffers, drvrpc.bufferState.property]
    decide
  · exact iff_of_false (not_lent_init id) (hfree id)
  · cases l with
    | request => exact ⟨0, 0, [], represents_init, represents_init⟩
    | forward => exact ⟨0, k, [], represents_init, hforward⟩
    | response => exact ⟨0, 0, [], represents_init, represents_init⟩

/-- A channel that starts like the initial one stays so. -/
theorem Alike.runs_iff (h : Alike .initial c) (acts : List ChannelAct) (view : Channel.View) :
    (∃ c', (channelLts variant).Run c acts c' ∧ c'.view = view) ↔
      ∃ c', (channelLts variant).Run .initial acts c' ∧ c'.view = view := by
  constructor
  · rintro ⟨c', hrun, rfl⟩
    obtain ⟨d', hrun', halike⟩ := h.symm.run hrun
    exact ⟨d', hrun', halike.view_eq.symm⟩
  · rintro ⟨c', hrun, rfl⟩
    obtain ⟨d', hrun', halike⟩ := h.run hrun
    exact ⟨d', hrun', halike.view_eq.symm⟩

theorem Alike.run_lendsExactly (h : Alike .initial c) {acts : List ChannelAct} {c' : Channel}
    (hrun : (channelLts variant).Run c acts c') : c'.LendsExactly := by
  obtain ⟨d', hrun', halike⟩ := h.symm.run hrun
  have hreach : (channelLts variant).Reachable d' := Lts.Reachable.run (.init rfl) hrun'
  obtain ⟨_, hi⟩ := channelInv_of_reachable hreach
  exact halike.lendsExactly hi.lent_iff

end FreshChannels

/-- A message that is lent before the call is lent after it. -/
theorem not_fresh_of_lent (iobuf : RpcmsgIobuf) (drvrpc : VsoDriverRpc) {id : Fin rpcmsgBufferSize}
    (h : Lent drvrpc.bufferState id) :
    ¬ ∃ c, driverInit iobuf drvrpc = some c ∧ FreshChannel c := by
  rintro ⟨c, hc, hfresh⟩
  rw [driverInit_eq] at hc
  cases hc
  exact hfresh.free id h

/-- **A reboot gives a fresh channel exactly when** nothing was queued for the user part before it
and no message was marked lent. -/
theorem driver_init_fresh_iff (iobuf : RpcmsgIobuf) (drvrpc : VsoDriverRpc) :
    (∃ c, driverInit iobuf drvrpc = some c ∧ FreshChannel c) ↔
      (∃ k, Represents (iobuf.queues .drvrpcReqDev) k []) ∧
        ∀ id, ¬ Lent drvrpc.bufferState id := by
  rw [driverInit_eq]
  constructor
  · rintro ⟨c, hc, hfresh⟩
    cases hc
    exact ⟨hfresh.empty .forward, hfresh.free⟩
  · rintro ⟨⟨k, hforward⟩, hfree⟩
    have halike := alike_initial hforward hfree
    refine ⟨_, rfl, fun l => ?_, fun _ _ => rfl, hfree, fun _ _ _ => halike.run_lendsExactly,
      fun _ => halike.runs_iff⟩
    cases l with
    | request => exact ⟨0, represents_init⟩
    | forward => exact ⟨k, hforward⟩
    | response => exact ⟨0, represents_init⟩

/-- A message that the kernel part forwarded before the reboot reaches the user part after it, with
its words cleared and no request behind it. -/
theorem forwarded_survives (variant : Party → CasVariant) {iobuf : RpcmsgIobuf}
    (drvrpc : VsoDriverRpc) {k : ℕ} {msg : Fin rpcmsgBufferSize}
    {xs : List (Fin rpcmsgBufferSize)}
    (h : Represents (iobuf.queues .drvrpcReqDev) k (msg :: xs)) :
    ∃ c c', driverInit iobuf drvrpc = some c ∧
      channelStep variant c .receiveForwarded = some c' ∧
      c'.hand .user = [⟨msg, 0⟩] ∧ c'.requests = [] ∧ ∀ word, c'.buffer msg word = 0#64 := by
  obtain ⟨q, hreceive, -⟩ := receive_represents (variant .user) rpcmsgBufferInit h
  refine ⟨rebooted iobuf drvrpc, (rebooted iobuf drvrpc).accept .forward .user q msg,
    driverInit_eq iobuf drvrpc, ?_, ?_, ?_, ?_⟩
  · show (rpcmsgReceive (variant .user) (iobuf.queues .drvrpcReqDev) rpcmsgBufferInit).map _ = _
    rw [hreceive]
    rfl
  · rfl
  · rfl
  · exact fun _ => rfl

/-! ### A reboot with a request under way -/

/-- The iobuf of a channel. -/
def Channel.iobuf (c : Channel) : RpcmsgIobuf where
  buffers
    | .drvrpc => c.buffer
    | .devevt => rpcmsgBufferInit
  queues
    | .drvrpcReq => c.queue .request
    | .drvrpcReqDev => c.queue .forward
    | .drvrpcResp => c.queue .response
    | .devevt => rpcmsgQueueInit

/-- A request that the kernel part has forwarded. -/
def forwardedRequest : List ChannelAct :=
  [.request fun _ => 5#64, .receive, .forward ⟨0, 0⟩]

/-- **A reboot with a request under way.**  The request is forgotten, but its message stays lent and
is still queued for the user part. -/
theorem reboot_not_fresh :
    ∃ c, (channelLts fun _ => .user).Reachable c ∧ ∃ hlen,
      ¬ ∃ c', driverInit c.iobuf ⟨some driverDrvrpcReq, some driverDrvrpcResp, ⟨c.state, hlen⟩⟩
        = some c' ∧ FreshChannel c' := by
  obtain ⟨c, hreach, hlen, hlent⟩ : ∃ c, (channelLts fun _ => .user).Reachable c ∧
      c.state.length = (rpcmsgBufferSize + nBits - 1) / nBits ∧
      Lent c.state 0 :=
    ⟨play (channelStep fun _ => .user) .initial forwardedRequest,
      Lts.Reachable.play (fun _ _ _ hs => hs) (.init rfl) forwardedRequest,
      by decide +kernel, by decide +kernel⟩
  exact ⟨c, hreach, hlen, not_fresh_of_lent c.iobuf _ hlent⟩

end TiiSel4Vm.RpcQueue
