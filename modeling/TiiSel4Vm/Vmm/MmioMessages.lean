import TiiSel4Vm.Vmm.HandleMmio

/-!
# MMIO requests and their answers

`driver_rpc_req_mmio_start` packs five values into the first word of a message.  The device decodes
them, writes its answer into the message and sends it back, and `handle_mmio` takes slot and data
from what comes back.

* `mmioWords_decode` — what the fields of the message decode to, for values of any size;
* `driverRpcReqMmioStart_request`, `driverRpcAckMmioFinish_steps` — the functions are steps of the
  channel;
* `mmio_round_trip` — the message on its way through the channel, among any other traffic.
-/

namespace TiiSel4Vm.Ioreq

open TiiSel4Vm.RpcQueue TiiSel4Vm.Transition TiiSel4Vm.RpcRun TiiSel4Vm.Devices TiiSel4Vm.IoProxy

/-! ### Fields -/

theorem toNat_and_mask {n : Word} {w : ℕ} (hw : w < 64) :
    (n &&& mask w).toNat = n.toNat % 2 ^ w := by
  apply Nat.eq_of_testBit_eq
  intro i
  have hbit : (n &&& mask w).getLsbD i = (n.getLsbD i && decide (i < w)) := by
    rw [BitVec.getLsbD_and, getLsbD_mask hw]
  rw [Nat.testBit_mod_two_pow, Bool.and_comm]
  exact hbit

/-- Reading a field back, as a number. -/
theorem toNat_bitFieldGet_set {v n : Word} {f : BitField} (hf : f.width < 64)
    (hfit : f.shift + f.width ≤ 64) :
    (bitFieldGet (bitFieldSet v f n) f).toNat = n.toNat % 2 ^ f.width := by
  rw [bitFieldGet_set hf hfit, toNat_and_mask hf]

/-- The words of a request. -/
def mmioWords (direction addrSpace slot : BitVec 32) (addr len data : Word) : RpcMsg :=
  rpcMsg (mmioMr0 (direction.setWidth 64) (addrSpace.setWidth 64) (slot.setWidth 64) len) addr data
    0#64

/-- A message decodes to the given values, each modulo the width of its field. -/
structure DecodesTo (msg : RpcMsg) (direction addrSpace slot : BitVec 32)
    (addr len data : Word) : Prop where
  op : qemuOp (msg mr0) = qemuOpMmio
  direction : (bitFieldGet (msg mr0) rpcMr0MmioDirection).toNat
    = direction.toNat % 2 ^ rpcMr0MmioDirection.width
  addrSpace : (bitFieldGet (msg mr0) rpcMr0MmioAddrSpace).toNat
    = addrSpace.toNat % 2 ^ rpcMr0MmioAddrSpace.width
  slot : (bitFieldGet (msg mr0) rpcMr0MmioSlot).toNat = slot.toNat % 2 ^ rpcMr0MmioSlot.width
  length : (bitFieldGet (msg mr0) rpcMr0MmioLength).toNat = len.toNat % 2 ^ rpcMr0MmioLength.width
  addr : msg mr1 = addr
  data : msg mr2 = data

theorem toNat_setWidth_word (x : BitVec 32) : (x.setWidth 64).toNat = x.toNat := by
  have hx := x.isLt
  rw [BitVec.toNat_setWidth]
  exact Nat.mod_eq_of_lt (by omega)

/-- **Encoding.**  No field disturbs another, whatever the values. -/
theorem mmioWords_decode (direction addrSpace slot : BitVec 32) (addr len data : Word) :
    DecodesTo (mmioWords direction addrSpace slot addr len data) direction addrSpace slot addr len
      data where
  op := op_mmioMr0 _ _ _ _
  direction := by
    show (bitFieldGet (mmioMr0 _ _ _ _) rpcMr0MmioDirection).toNat = _
    rw [mmioMr0, bitFieldGet_set_of_disjoint (by decide) (by decide) (by decide) (by decide),
      bitFieldGet_set_of_disjoint (by decide) (by decide) (by decide) (by decide),
      bitFieldGet_set_of_disjoint (by decide) (by decide) (by decide) (by decide),
      bitFieldGet_set_of_disjoint (by decide) (by decide) (by decide) (by decide),
      toNat_bitFieldGet_set (by decide) (by decide), toNat_setWidth_word]
  addrSpace := by
    show (bitFieldGet (mmioMr0 _ _ _ _) rpcMr0MmioAddrSpace).toNat = _
    rw [mmioMr0, bitFieldGet_set_of_disjoint (by decide) (by decide) (by decide) (by decide),
      bitFieldGet_set_of_disjoint (by decide) (by decide) (by decide) (by decide),
      bitFieldGet_set_of_disjoint (by decide) (by decide) (by decide) (by decide),
      toNat_bitFieldGet_set (by decide) (by decide), toNat_setWidth_word]
  slot := by
    show (bitFieldGet (mmioMr0 _ _ _ _) rpcMr0MmioSlot).toNat = _
    rw [mmioMr0, bitFieldGet_set_of_disjoint (by decide) (by decide) (by decide) (by decide),
      toNat_bitFieldGet_set (by decide) (by decide), toNat_setWidth_word]
  length := by
    show (bitFieldGet (mmioMr0 _ _ _ _) rpcMr0MmioLength).toNat = _
    rw [mmioMr0, bitFieldGet_set_of_disjoint (by decide) (by decide) (by decide) (by decide),
      bitFieldGet_set_of_disjoint (by decide) (by decide) (by decide) (by decide),
      toNat_bitFieldGet_set (by decide) (by decide)]
  addr := rfl
  data := rfl

/-! ### The functions as steps of the channel -/

/-- What a reply uses of `vso_rpc_t`. -/
structure ReplyRpc where
  response : Queue
  buffer : RpcMsgBuffer
  /-- whether a doorbell is set -/
  doorbell : Bool
  /-- the calls of the doorbell so far -/
  rings : ℕ

/-- `driver_rpc_reply`, with `vso_doorbell`; `none` while it has not returned. -/
def driverRpcReply (v : CasVariant) (rpc : ReplyRpc) (msg : Fin rpcmsgBufferSize) :
    Option (ℤ × ReplyRpc) :=
  (rpcmsgReply v rpc.response rpc.buffer msg).map fun r =>
    let rpc' := { rpc with response := r.1 }
    if r.2 ≠ 0 then (r.2, rpc')
    else if rpc'.doorbell then (0, { rpc' with rings := rpc'.rings + 1 })
    else (-1, rpc')

/-- The message with the answer in it. -/
def answered (msg : RpcMsg) (data : Word) : RpcMsg := Function.update msg mr2 data

/-- `driver_rpc_ack_mmio_finish`. -/
def driverRpcAckMmioFinish (v : CasVariant) (rpc : ReplyRpc) (msg : Fin rpcmsgBufferSize)
    (data : Word) : Option (ℤ × ReplyRpc) :=
  driverRpcReply v
    { rpc with buffer := Function.update rpc.buffer msg (answered (rpc.buffer msg) data) } msg

/-- The driver's side of a channel. -/
def driverSide (c : Channel) (doorbell : Bool) (rings : ℕ) : VsoRpc where
  request := c.queue .request
  buffer := c.buffer
  bufferState := c.state
  doorbell := doorbell
  rings := rings

/-- A device part's side of a channel. -/
def deviceSide (c : Channel) (doorbell : Bool) (rings : ℕ) : ReplyRpc where
  response := c.queue .response
  buffer := c.buffer
  doorbell := doorbell
  rings := rings

section Channel

variable {variant : Party → CasVariant} {c c' : Channel}

/-- `driver_rpc_req_mmio_start` in a reachable state with a free message: it queues its words and
rings the doorbell, as the step of the channel does. -/
theorem driverRpcReqMmioStart_request (hc : (channelLts variant).Reachable c)
    (hfree : ∃ id, ¬ Lent c.state id) (direction addrSpace slot : BitVec 32) (addr len data : Word)
    (doorbell : Bool) (rings : ℕ) :
    ∃ c' ret rings', (channelLts variant).step c
        (.request (mmioWords direction addrSpace slot addr len data)) c' ∧
      driverRpcReqMmioStart (variant .driver) (driverSide c doorbell rings) direction addrSpace slot
        addr len data = .returned ret (driverSide c' doorbell rings') ∧
      c'.requests.length = c.requests.length + 1 ∧
      c'.written c.requests.length = mmioWords direction addrSpace slot addr len data := by
  obtain ⟨place, hi⟩ := channelInv_of_reachable hc
  obtain ⟨id, q, k, -, hreq, -⟩ := hi.request (variant .driver)
    (mmioWords direction addrSpace slot addr len data) hfree
  refine ⟨c.issue (mmioWords direction addrSpace slot addr len data) ((id : ℕ) : ℤ)
    (setBit id c.state) q
      (Function.update c.buffer id (mmioWords direction addrSpace slot addr len data)),
    if doorbell then 0 else -1, if doorbell then rings + 1 else rings, ?_, ?_, ?_, ?_⟩
  · show channelStep variant c _ = some _
    simp only [channelStep, if_pos hfree, hreq, Int.natCast_nonneg, if_true]
  · show driverRpcRequest _ _ _ _ _ _ _ = _
    unfold driverRpcRequest
    have hreq' : rpcmsgRequest (variant .driver) (driverSide c doorbell rings).bufferState
        (driverSide c doorbell rings).request (driverSide c doorbell rings).buffer
        (rpcMsg (mmioMr0 (direction.setWidth 64) (addrSpace.setWidth 64) (slot.setWidth 64) len)
          addr data 0#64)
        = .done ((id : ℕ) : ℤ) (setBit id c.state) q
          (Function.update c.buffer id (mmioWords direction addrSpace slot addr len data)) := hreq
    unfold mmioMr0 at hreq'
    rw [hreq']
    have hnonneg : ¬ ((id : ℕ) : ℤ) < 0 := by omega
    simp only [if_neg hnonneg]
    cases doorbell with
    | true => rfl
    | false => rfl
  · simp [Channel.issue]
  · exact Function.update_self _ _ _

/-- The message of `t` is written. -/
def wrote (c : Channel) (t : Ticket) (words : RpcMsg) : Channel :=
  { c with buffer := Function.update c.buffer t.id words
           written := Function.update c.written t.serial words }

/-- An enqueue leaves the words and the requests. -/
theorem dispatch_frame (c : Channel) (l : Link) (p : Party) (t : Ticket) (r : Queue × ℤ) :
    (c.dispatch l p t r).written = c.written ∧ (c.dispatch l p t r).requests = c.requests := by
  unfold Channel.dispatch
  split
  · exact ⟨rfl, rfl⟩
  · exact ⟨rfl, rfl⟩

/-- `driver_rpc_ack_mmio_finish` on a message that a device part holds: it writes the answer and
replies, as the two steps of the channel do. -/
theorem driverRpcAckMmioFinish_steps (hc : (channelLts variant).Reachable c) {p : Party}
    (hp : p ≠ .driver) {t : Ticket} (ht : t ∈ c.hand p) (data : Word) (doorbell : Bool)
    (rings : ℕ) :
    ∃ c' ret rings', (channelLts variant).Run c
        [.write p t (answered (c.buffer t.id) data), .reply p t] c' ∧
      driverRpcAckMmioFinish (variant p) (deviceSide c doorbell rings) t.id data
        = some (ret, deviceSide c' doorbell rings') ∧
      c'.requests = c.requests ∧
      c'.written t.serial = answered (c.buffer t.id) data := by
  have hwrite : (channelLts variant).step c (.write p t (answered (c.buffer t.id) data))
      (wrote c t (answered (c.buffer t.id) data)) := by
    show channelStep variant c _ = some _
    simp only [channelStep, if_pos (And.intro ht hp), wrote]
  obtain ⟨place, hi⟩ := channelInv_of_reachable (hc.step hwrite)
  obtain ⟨q, k, hreply, -⟩ := hi.send (variant p) .response (p := p) (t := t) ht
  have hsend : (channelLts variant).step (wrote c t (answered (c.buffer t.id) data)) (.reply p t)
      ((wrote c t (answered (c.buffer t.id) data)).dispatch .response p t (q, 0)) := by
    have hreply' : rpcmsgReply (variant p)
        ((wrote c t (answered (c.buffer t.id) data)).queue .response)
        (wrote c t (answered (c.buffer t.id) data)).buffer t.id = some (q, 0) := hreply
    have hhand : t ∈ (wrote c t (answered (c.buffer t.id) data)).hand p := ht
    show channelStep variant _ _ = some _
    simp only [channelStep, if_pos (And.intro hhand hp), hreply', Option.map_some]
  refine ⟨_, if doorbell then 0 else -1, if doorbell then rings + 1 else rings,
    (Lts.Run.single hwrite).append (Lts.Run.single hsend), ?_, ?_, ?_⟩
  · have hreply' : rpcmsgReply (variant p) (deviceSide c doorbell rings).response
        (Function.update (deviceSide c doorbell rings).buffer t.id
          (answered ((deviceSide c doorbell rings).buffer t.id) data)) t.id = some (q, 0) := hreply
    unfold driverRpcAckMmioFinish driverRpcReply
    rw [hreply']
    cases doorbell with
    | true => simp [Channel.dispatch, deviceSide, wrote]
    | false => simp [Channel.dispatch, deviceSide, wrote]
  · exact (dispatch_frame _ _ _ _ _).2
  · rw [(dispatch_frame _ _ _ _ _).1]
    exact Function.update_self _ _ _

/-! ### A message on its way -/

/-- Nobody writes the message of request `n`. -/
def LeavesMessage (n : ℕ) (ls : List ChannelAct) : Prop :=
  ∀ p t words, .write p t words ∈ ls → t.serial ≠ n

/-- A step that does not write the message of an earlier request leaves its words. -/
theorem written_step {act : ChannelAct} {n : ℕ} (h : channelStep variant c act = some c')
    (hn : n < c.requests.length) (hact : LeavesMessage n [act]) :
    c'.written n = c.written n ∧ c.requests.length ≤ c'.requests.length := by
  have hdispatch : ∀ l p t (r : Queue × ℤ), (c.dispatch l p t r).written n = c.written n ∧
      c.requests.length ≤ (c.dispatch l p t r).requests.length := by
    intro l p t r
    obtain ⟨hwritten, hrequests⟩ := dispatch_frame c l p t r
    exact ⟨congrFun hwritten n, hrequests ▸ le_refl _⟩
  cases act with
  | request words =>
      simp only [channelStep] at h
      split at h
      · split at h
        · split at h
          · cases h
            refine ⟨Function.update_of_ne (Nat.ne_of_lt hn) _ _, ?_⟩
            simp [Channel.issue]
          · cases h
            exact ⟨rfl, le_refl _⟩
        · cases h
      · cases h
  | receive =>
      obtain ⟨r, -, rfl⟩ := Option.map_eq_some_iff.mp h
      split
      · exact ⟨rfl, le_refl _⟩
      · exact ⟨rfl, le_refl _⟩
  | receiveForwarded =>
      obtain ⟨r, -, rfl⟩ := Option.map_eq_some_iff.mp h
      split
      · exact ⟨rfl, le_refl _⟩
      · exact ⟨rfl, le_refl _⟩
  | receiveResponse =>
      obtain ⟨r, -, rfl⟩ := Option.map_eq_some_iff.mp h
      split
      · exact ⟨rfl, le_refl _⟩
      · exact ⟨rfl, le_refl _⟩
  | forward t =>
      simp only [channelStep] at h
      split at h
      · obtain ⟨r, -, rfl⟩ := Option.map_eq_some_iff.mp h
        exact hdispatch _ _ _ _
      · cases h
  | reply p t =>
      simp only [channelStep] at h
      split at h
      · obtain ⟨r, -, rfl⟩ := Option.map_eq_some_iff.mp h
        exact hdispatch _ _ _ _
      · cases h
  | write p t words =>
      simp only [channelStep] at h
      split at h
      · cases h
        have hne := hact p t words (List.mem_singleton.mpr rfl)
        exact ⟨Function.update_of_ne (Ne.symm hne) _ _, le_refl _⟩
      · cases h
  | reclaim t =>
      simp only [channelStep] at h
      split at h
      · cases h
        exact ⟨rfl, le_refl _⟩
      · cases h

/-- And so does a run. -/
theorem written_run {ls : List ChannelAct} {n : ℕ} (h : (channelLts variant).Run c ls c')
    (hn : n < c.requests.length) (hls : LeavesMessage n ls) :
    c'.written n = c.written n ∧ n < c'.requests.length := by
  induction h with
  | nil => exact ⟨rfl, hn⟩
  | snoc _ hs ih =>
      obtain ⟨hwritten, hlt⟩ := ih fun p t words hm => hls p t words (List.mem_append_left _ hm)
      have hact : LeavesMessage n [_] :=
        fun p t words hm => hls p t words (List.mem_append_right _ hm)
      obtain ⟨hstep, hle⟩ := written_step hs hlt hact
      exact ⟨hstep.trans hwritten, Nat.lt_of_lt_of_le hlt hle⟩

/-- A message that a party holds has the words written last for its request. -/
theorem held_words (hc : (channelLts variant).Reachable c) {p : Party} {t : Ticket}
    (ht : t ∈ c.hand p) : c.buffer t.id = c.written t.serial := by
  obtain ⟨place, hi⟩ := channelInv_of_reachable hc
  rw [hi.fits.hand] at ht
  exact hi.answers.content t ⟨.hand p, ht⟩

/-! ### The answer -/

/-- What the driver makes of a response: operation and slot are those of the request, the data is
the answer, and `handle_mmio` calls the callback of the slot with it. -/
structure Completes (F C : Type) (msg : RpcMsg) (slot : BitVec 32) (data : Word) : Prop where
  op : qemuOp (msg mr0) = qemuOpMmio
  sameSlot : (bitFieldGet (msg mr0) rpcMr0MmioSlot).toNat = slot.toNat % 2 ^ rpcMr0MmioSlot.width
  carries : msg mr2 = data
  completes : ∀ (ret : F → Option C → Word → ℤ) (w : RunState (IoackMemory F C)) (fn : F),
    slot.toNat < ioacksSize → (w.rest.ioack slot.toNat).callback = some fn →
      (handleMmio ret (qemuOp (msg mr0)) msg w).2.rest.calls
          = w.rest.calls ++ [⟨slot.toNat, fn, (w.rest.ioack slot.toNat).cookie, data⟩] ∧
        ((handleMmio ret (qemuOp (msg mr0)) msg w).2.rest.ioack slot.toNat).callback = none

theorem completes_answered {F C : Type} {msg : RpcMsg} {direction addrSpace slot : BitVec 32}
    {addr len data : Word} (h : DecodesTo msg direction addrSpace slot addr len data)
    (answer : Word) : Completes F C (answered msg answer) slot answer := by
  have hmr0 : answered msg answer mr0 = msg mr0 := Function.update_of_ne (by decide) _ _
  have hmr2 : answered msg answer mr2 = answer := Function.update_self _ _ _
  have hslot : (bitFieldGet (answered msg answer mr0) rpcMr0MmioSlot).toNat
      = slot.toNat % 2 ^ rpcMr0MmioSlot.width := by
    rw [hmr0]
    exact h.slot
  refine ⟨by rw [hmr0]; exact h.op, hslot, hmr2, ?_⟩
  intro ret w fn hlt hfn
  have hname : mmioSlot (answered msg answer) = slot := by
    apply BitVec.eq_of_toNat_eq
    rw [toNat_mmioSlot, hslot]
    exact Nat.mod_eq_of_lt (Nat.lt_trans hlt (by decide))
  have hop : qemuOp (answered msg answer mr0) = qemuOpMmio := by
    rw [hmr0]
    exact h.op
  have hle : slot.toNat ≤ ioacksSize := Nat.le_of_lt hlt
  unfold handleMmio
  rw [if_neg (not_not_intro hop), hname, hmr2]
  unfold ioreqFinish
  rw [if_neg (not_not_intro hle)]
  simp only [hfn, Function.update_self]
  exact ⟨trivial, trivial⟩

/-- **The round trip of an MMIO request.**  In a reachable state with a free message
`driver_rpc_req_mmio_start` makes a request, and from there on in every run: whoever holds its
message, before anybody has written it, decodes what was given, each value modulo the width of its
field; a device part that holds it can answer with any data by `driver_rpc_ack_mmio_finish`; and the
response that the driver then receives completes the slot with that data. -/
theorem mmio_round_trip (F C : Type) (hc : (channelLts variant).Reachable c)
    (hfree : ∃ id, ¬ Lent c.state id) (direction addrSpace slot : BitVec 32) (addr len data : Word)
    (doorbell : Bool) (rings : ℕ) :
    ∃ c₁ ret rings', (channelLts variant).step c
        (.request (mmioWords direction addrSpace slot addr len data)) c₁ ∧
      driverRpcReqMmioStart (variant .driver) (driverSide c doorbell rings) direction addrSpace slot
        addr len data = .returned ret (driverSide c₁ doorbell rings') ∧
      ∀ ls c₂, (channelLts variant).Run c₁ ls c₂ → LeavesMessage c.requests.length ls →
        ∀ p t, t ∈ c₂.hand p → t.serial = c.requests.length →
          DecodesTo (c₂.buffer t.id) direction addrSpace slot addr len data ∧
          (p ≠ .driver → ∀ answer : Word, ∃ c₃ ret₃ rings₃, (channelLts variant).Run c₂
              [.write p t (answered (c₂.buffer t.id) answer), .reply p t] c₃ ∧
            driverRpcAckMmioFinish (variant p) (deviceSide c₂ doorbell rings) t.id answer
              = some (ret₃, deviceSide c₃ doorbell rings₃) ∧
            ∀ ls' c₄, (channelLts variant).Run c₃ ls' c₄ → LeavesMessage c.requests.length ls' →
              ∀ r ∈ c₄.responses, r.serial = c.requests.length →
                Completes F C r.words slot answer) := by
  obtain ⟨c₁, ret, rings', hreq, hcode, hlen, hwords⟩ := driverRpcReqMmioStart_request hc hfree
    direction addrSpace slot addr len data doorbell rings
  refine ⟨c₁, ret, rings', hreq, hcode, ?_⟩
  intro ls c₂ hrun hleft p t ht hserial
  have hc₂ := (hc.step hreq).run hrun
  obtain ⟨hwritten, hlt⟩ := written_run hrun (by rw [hlen]; exact Nat.lt_succ_self _) hleft
  have hbuffer : c₂.buffer t.id = mmioWords direction addrSpace slot addr len data := by
    rw [held_words hc₂ ht, hserial, hwritten, hwords]
  have hdecode : DecodesTo (c₂.buffer t.id) direction addrSpace slot addr len data := by
    rw [hbuffer]
    exact mmioWords_decode direction addrSpace slot addr len data
  refine ⟨hdecode, ?_⟩
  intro hp answer
  obtain ⟨c₃, ret₃, rings₃, hack, hackCode, hrequests, hanswer⟩ :=
    driverRpcAckMmioFinish_steps hc₂ hp ht answer doorbell rings
  refine ⟨c₃, ret₃, rings₃, hack, hackCode, ?_⟩
  intro ls' c₄ hrun' hleft' r hr hrserial
  obtain ⟨hwritten', -⟩ := written_run hrun' (by rw [hrequests]; exact hlt) hleft'
  obtain ⟨place, hi⟩ := channelInv_of_reachable ((hc₂.run hack).run hrun')
  have hr' : r.words = answered (c₂.buffer t.id) answer := by
    rw [(hi.answers.answered r hr).2, hrserial, hwritten', ← hserial, hanswer]
  rw [hr']
  exact completes_answered hdecode answer

end Channel

/-- A request with a direction, an address space and a length wider than their fields. -/
def wideRequest : RpcMsg := mmioWords 3#32 0x1ff#32 5#32 0x1000#64 0x12#64 7#64

/-- Its way to the user part. -/
def toUserPart (t : Ticket) : List ChannelAct :=
  [.request wideRequest, .receive, .forward t, .receiveForwarded]

/-- The answer 42, and its way back. -/
def backToDriver (t : Ticket) : List ChannelAct :=
  [.write .user t (answered wideRequest 42#64), .reply .user t, .receiveResponse]

/-- A first request goes through the channel: the user part decodes it and answers 42, and the
response that the driver receives completes slot 5 with it. -/
theorem mmio_round_trip_first :
    ∃ t c₂ c₄ r, (channelLts fun _ => .user).Run .initial (toUserPart t) c₂ ∧
      t ∈ c₂.hand .user ∧
      DecodesTo (c₂.buffer t.id) 3#32 0x1ff#32 5#32 0x1000#64 0x12#64 7#64 ∧
      (channelLts fun _ => .user).Run c₂ (backToDriver t) c₄ ∧
      r ∈ c₄.responses ∧ Completes Unit Unit r.words 5#32 42#64 := by
  let t : Ticket := ⟨⟨0, by decide⟩, 0⟩
  let step := channelStep fun _ => .user
  have hfree : ∃ id, ¬ Lent Channel.initial.state id := ⟨0, by decide⟩
  have hreach : (channelLts fun _ => .user).Reachable Channel.initial := .init rfl
  obtain ⟨c₁, ret, rings', hreq, -, htrip⟩ := mmio_round_trip Unit Unit hreach hfree 3#32 0x1ff#32
    5#32 0x1000#64 0x12#64 7#64 true 0
  -- the message reaches the user part
  obtain ⟨c₂, hc₂⟩ := Option.isSome_iff_exists.mp
    (by decide +kernel : (runAll step .initial (toUserPart t)).isSome = true)
  have hheld : (runAll step .initial (toUserPart t)).map (fun c => decide (t ∈ c.hand .user))
      = some true := by
    decide +kernel
  have hwords : (runAll step .initial (toUserPart t)).map (fun c => c.buffer t.id)
      = some wideRequest := by
    decide +kernel
  rw [hc₂, Option.map_some, Option.some_inj] at hheld hwords
  have hrun₂ : (channelLts fun _ => .user).Run .initial (toUserPart t) c₂ :=
    .of_runAll (fun _ _ _ hs => hs) hc₂
  have hway : (channelLts fun _ => .user).Run c₁ [.receive, .forward t, .receiveForwarded] c₂ := by
    refine .of_runAll (f := step) (fun _ _ _ hs => hs) ?_
    have hfirst : step .initial (.request wideRequest) = some c₁ := hreq
    rw [toUserPart, runAll, hfirst] at hc₂
    exact hc₂
  obtain ⟨hdecode, hanswer⟩ := htrip _ c₂ hway (fun _ _ _ h => by simp at h) .user t
    (of_decide_eq_true hheld) rfl
  -- the answer reaches the driver
  obtain ⟨c₃, ret₃, rings₃, hack, -, hcomplete⟩ := hanswer (by decide) 42#64
  rw [hwords] at hack
  obtain ⟨c₄, hc₄⟩ := Option.isSome_iff_exists.mp
    (by decide +kernel : (runAll step .initial (toUserPart t ++ backToDriver t)).isSome = true)
  have hserial : (runAll step .initial (toUserPart t ++ backToDriver t)).map
      (fun c => c.responses.map Response.serial) = some [0] := by
    decide +kernel
  rw [hc₄, Option.map_some, Option.some_inj] at hserial
  obtain ⟨r, hr, hrserial⟩ := List.map_eq_singleton_iff.mp hserial
  rw [runAll_append, hc₂, Option.bind_some] at hc₄
  have hback : (channelLts fun _ => .user).Run c₃ [.receiveResponse] c₄ := by
    refine .of_runAll (f := step) (fun _ _ _ hs => hs) ?_
    have hsplit : runAll step c₂ (backToDriver t) = _ := runAll_append step c₂
      [.write .user t (answered wideRequest 42#64), .reply .user t] [.receiveResponse]
    rw [runAll_of_run hack, Option.bind_some] at hsplit
    exact hsplit.symm.trans hc₄
  have hmem : r ∈ c₄.responses := by
    rw [hr]
    exact List.mem_singleton_self r
  exact ⟨t, c₂, c₄, r, hrun₂, of_decide_eq_true hheld, hdecode,
    .of_runAll (fun _ _ _ hs => hs) hc₄, hmem,
    hcomplete _ c₄ hback (fun _ _ _ h => by simp at h) r hmem hrserial⟩

end TiiSel4Vm.Ioreq
