import TiiSel4Vm.Rpc.Channel

/-!
# A request on any queue

`rpcmsg_request` takes a buffer and then a place in the ring.  Either can be missing; it checks for
the second only.

* `enqueue_near`, `enqueue_far` — `rpcmsg_enqueue` alone on a queue with any markers;
* `request_outcome_iff` — the request is made, or refused with nothing changed, exactly when a
  buffer is free and the ring lets the caller in;
* `request_null_write` — with every buffer lent it writes through NULL.
-/

namespace TiiSel4Vm.RpcQueue

/-! ### Enqueueing on any queue -/

/-- The ids between the consumers' and the producers' tail. -/
def Queue.queued (q : Queue) : List (BitVec 16) :=
  (List.range (q.prod.tail.pos - q.cons.tail.pos).toNat).map fun i =>
    q.ring (ringIndex (q.cons.tail.pos + BitVec.ofNat 32 i))

/-- One producer acquired the next entry, wrote an id there and committed. -/
def Queue.pushed (q : Queue) (msg : Fin rpcmsgBufferSize) : Queue :=
  { q with
    prod := ⟨q.prod.tail.next, newHead q.prod.head q.prod.tail.next⟩
    ring := Function.update q.ring (ringIndex q.prod.tail.pos) (rpcmsgMsgToId msg) }

section Enqueue

variable {v : CasVariant} {q : Queue} {buf : RpcMsgBuffer} {msg : Fin rpcmsgBufferSize}

/-- **No entry.**  The call returns -1 and changes nothing. -/
theorem enqueue_none (hnear : ¬ TooFar q.prod q.prod.tail)
    (hzero : entries .prod q q.prod.tail = 0#32) :
    rpcmsgEnqueue v q buf msg = some (q, buf, -1, .nothing) :=
  runAlone_fails (.rpcEnqueue msg) hnear hzero

/-- **An entry.**  The call writes the id at the tail. -/
theorem enqueue_near (hnear : ¬ TooFar q.prod q.prod.tail)
    (hroom : entries .prod q q.prod.tail ≠ 0#32) :
    rpcmsgEnqueue v q buf msg = some (q.pushed msg, buf, 0, .nothing) :=
  runAlone_succeeds (.rpcEnqueue msg) hnear hroom rfl

/-- **Too far.**  Left alone the call waits for the other producers, however often it looks. -/
theorem enqueue_far (hfar : TooFar q.prod q.prod.tail) (fuel : ℕ) :
    runAlone v fuel q buf (.acquiring (.rpcEnqueue msg) .load) = none := by
  have hfar' : TooFar (q.bound (Op.rpcEnqueue msg).side)
      (q.bound (Op.rpcEnqueue msg).side).tail := hfar
  have hwait : ∀ n, runAlone v n q buf (.acquiring (.rpcEnqueue msg)
        (.wait (q.bound (Op.rpcEnqueue msg).side).tail)) = none ∧
      runAlone v n q buf (.acquiring (.rpcEnqueue msg) .reload) = none := by
    intro n
    induction n with
    | zero => exact ⟨rfl, rfl⟩
    | succ n ih =>
        constructor
        · rw [runAlone_move (.far (.rpcEnqueue msg) _ hfar')]
          exact ih.2
        · rw [runAlone_move (.reload (.rpcEnqueue msg))]
          exact ih.1
  cases fuel with
  | zero => rfl
  | succ n =>
      rw [runAlone_move (.load (.rpcEnqueue msg))]
      exact (hwait n).1

/-- While fewer than 32 ids are queued, the new one comes after them. -/
theorem queued_pushed (msg : Fin rpcmsgBufferSize)
    (h : (q.prod.tail.pos - q.cons.tail.pos).toNat < rpcmsgBufferSize) :
    (q.pushed msg).queued = q.queued ++ [rpcmsgMsgToId msg] := by
  generalize hn : (q.prod.tail.pos - q.cons.tail.pos).toNat = n at h
  have hn32 : n < 32 := h
  have htail : q.prod.tail.pos = q.cons.tail.pos + BitVec.ofNat 32 n := by
    rw [← hn, BitVec.ofNat_toNat, BitVec.setWidth_eq, BitVec.add_comm, BitVec.sub_add_cancel]
  have hslot : ∀ i, ringIndex (q.cons.tail.pos + BitVec.ofNat 32 i)
      = slotOf (q.cons.tail.pos.toNat + i) := by
    intro i
    rw [← ringIndex_ofNat, BitVec.ofNat_add, BitVec.ofNat_toNat, BitVec.setWidth_eq]
  have hcount : ((q.pushed msg).prod.tail.pos - (q.pushed msg).cons.tail.pos).toNat = n + 1 := by
    show (q.prod.tail.pos + 1#32 - q.cons.tail.pos).toNat = n + 1
    rw [htail, BitVec.add_assoc, BitVec.add_comm q.cons.tail.pos, BitVec.add_sub_cancel]
    rw [BitVec.toNat_add, BitVec.toNat_ofNat]
    have hone : (1#32).toNat = 1 := rfl
    omega
  have hold : ∀ i < n, (q.pushed msg).ring (ringIndex (q.cons.tail.pos + BitVec.ofNat 32 i))
      = q.ring (ringIndex (q.cons.tail.pos + BitVec.ofNat 32 i)) := by
    intro i hi
    show Function.update q.ring (ringIndex q.prod.tail.pos) _ _ = _
    rw [htail, hslot, hslot]
    exact Function.update_of_ne (slotOf_ne (Nat.lt_trans hi h) h (Nat.ne_of_lt hi)) _ _
  have hnew : (q.pushed msg).ring (ringIndex (q.cons.tail.pos + BitVec.ofNat 32 n))
      = rpcmsgMsgToId msg := by
    rw [← htail]
    exact Function.update_self _ _ _
  unfold Queue.queued
  rw [hcount, hn, List.range_succ, List.map_append, List.map_singleton]
  congr 1
  · apply List.map_congr_left
    intro i hi
    exact hold i (List.mem_range.mp hi)
  · exact congrArg (fun id => [id]) hnew

end Enqueue

/-! ### Giving a buffer back -/

/-- Setting a clear bit and clearing it again leaves the bitmap as it was. -/
theorem clearBit_setBit {addr : Bitmap} {nr : ℕ} (hclear : testBit addr nr = false) :
    clearBit nr (setBit nr addr) = addr := by
  unfold clearBit setBit
  apply List.ext_getElem
  · rw [List.length_modify, List.length_modify]
  · intro j _ hj
    rw [List.getElem_modify, List.getElem_modify]
    by_cases hword : nr / nBits = j
    · have hbit : addr[j].getLsbD (nr % nBits) = false := by
        unfold testBit at hclear
        rw [hword, List.getD_eq_getElem?_getD, List.getElem?_eq_getElem hj] at hclear
        exact hclear
      rw [if_pos hword, if_pos hword]
      apply BitVec.eq_of_getLsbD_eq
      intro b hb
      rw [BitVec.getLsbD_and, BitVec.getLsbD_or, BitVec.getLsbD_not, getLsbD_bitMask hb]
      by_cases he : b = nr % nBits
      · rw [he, hbit]
        simp
      · simp [he, hb]
    · rw [if_neg hword, if_neg hword]

/-! ### The request -/

/-- The request was made with a buffer that was free, or refused with nothing taken. -/
def MadeOrRefused (state : Bitmap) (q : Queue) (buf : RpcMsgBuffer) (words : RpcMsg) :
    RequestResult → Prop
  | .done ret state' q' buf' =>
      (∃ id : Fin rpcmsgBufferSize, ret = (id : ℕ) ∧ ¬ Lent state id ∧
        (∀ k, testBit state' k = (testBit state k || decide (k = id))) ∧
        buf' = Function.update buf id words ∧ q' = q.pushed id ∧
        ((q.prod.tail.pos - q.cons.tail.pos).toNat < rpcmsgBufferSize →
          q'.queued = q.queued ++ [rpcmsgMsgToId id])) ∨
      (ret = -1 ∧ state' = state ∧ q' = q)
  | .nullWrite => False
  | .waiting => False

section Request

variable {state : Bitmap}

/-- Every buffer is lent: nothing is checked. -/
theorem request_of_all_lent (h : CoversBuffers state) (hall : ∀ id, Lent state id) (v : CasVariant)
    (q : Queue) (buf : RpcMsgBuffer) (words : RpcMsg) :
    rpcmsgRequest v state q buf words = .nullWrite := by
  unfold rpcmsgRequest rpcmsgLendBuffer
  cases hscan : lendScan state with
  | none => rfl
  | some id => exact absurd (hall id) (not_lent_of_lendScan h hscan)

section Scanned

variable {id : Fin rpcmsgBufferSize} {q : Queue}

/-- A buffer is found, but the producers ahead are too many: the caller waits for them. -/
theorem request_waits (hscan : lendScan state = some id) (hfar : TooFar q.prod q.prod.tail)
    (v : CasVariant) (buf : RpcMsgBuffer) (words : RpcMsg) :
    rpcmsgRequest v state q buf words = .waiting := by
  have hwaits : rpcmsgEnqueue v q (Function.update buf id words) id = none :=
    enqueue_far hfar rpcAccesses
  simp only [rpcmsgRequest, rpcmsgLendBuffer, hscan, hwaits]

/-- A buffer is found, but no entry: it is given back. -/
theorem request_refused (h : CoversBuffers state) (hscan : lendScan state = some id)
    (hnear : ¬ TooFar q.prod q.prod.tail) (hzero : entries .prod q q.prod.tail = 0#32)
    (v : CasVariant) (buf : RpcMsgBuffer) (words : RpcMsg) :
    rpcmsgRequest v state q buf words = .done (-1) state q (Function.update buf id words) := by
  have hclear : testBit state id = false := Bool.eq_false_iff.mpr (not_lent_of_lendScan h hscan)
  have hback : rpcmsgReclaimBuffer (setBit id state) id = state := by
    rw [rpcmsgReclaimBuffer, rpcmsgMsgToId_toNat]
    exact clearBit_setBit hclear
  have hret : ¬ (-1 : ℤ) = 0 := by decide
  simp only [rpcmsgRequest, rpcmsgLendBuffer, hscan, enqueue_none hnear hzero, if_neg hret, hback]

/-- A buffer and an entry are found. -/
theorem request_made (hscan : lendScan state = some id) (hnear : ¬ TooFar q.prod q.prod.tail)
    (hroom : entries .prod q q.prod.tail ≠ 0#32) (v : CasVariant) (buf : RpcMsgBuffer)
    (words : RpcMsg) :
    rpcmsgRequest v state q buf words
      = .done (id : ℕ) (setBit id state) (q.pushed id) (Function.update buf id words) := by
  simp only [rpcmsgRequest, rpcmsgLendBuffer, hscan, enqueue_near hnear hroom, if_true,
    rpcmsgMsgToId_toNat]

end Scanned

/-- **Requests.**  On every buffer state and every queue the request is made or refused exactly when
a buffer is free and no more than `RPCMSG_HTD_MAX` producers are ahead, which it would wait for. -/
theorem request_outcome_iff (h : CoversBuffers state) (v : CasVariant) (q : Queue)
    (buf : RpcMsgBuffer) (words : RpcMsg) :
    MadeOrRefused state q buf words (rpcmsgRequest v state q buf words) ↔
      (∃ id, ¬ Lent state id) ∧ ¬ TooFar q.prod q.prod.tail := by
  cases hscan : lendScan state with
  | none =>
      have hall := lent_of_lendScan_none h hscan
      rw [request_of_all_lent h hall]
      constructor
      · intro hfalse
        exact hfalse.elim
      · rintro ⟨⟨id, hfree⟩, -⟩
        exact absurd (hall id) hfree
  | some id =>
      have hfree := not_lent_of_lendScan h hscan
      by_cases hfar : TooFar q.prod q.prod.tail
      · rw [request_waits hscan hfar]
        constructor
        · intro hfalse
          exact hfalse.elim
        · rintro ⟨-, hnear⟩
          exact absurd hfar hnear
      · have hmade : (∃ id, ¬ Lent state id) ∧ ¬ TooFar q.prod q.prod.tail := ⟨⟨id, hfree⟩, hfar⟩
        refine ⟨fun _ => hmade, fun _ => ?_⟩
        by_cases hzero : entries .prod q q.prod.tail = 0#32
        · rw [request_refused h hscan hfar hzero]
          exact Or.inr ⟨rfl, rfl, rfl⟩
        · rw [request_made hscan hfar hzero]
          exact Or.inl ⟨id, rfl, hfree, testBit_setBit (h.covers id), rfl, rfl,
            queued_pushed id⟩

end Request

/-- A request on an empty queue with one buffer free. -/
theorem request_outcome_iff_last :
    MadeOrRefused [0xfffffffe#64] rpcmsgQueueInit rpcmsgBufferInit (fun _ => 7#64)
      (rpcmsgRequest .user [0xfffffffe#64] rpcmsgQueueInit rpcmsgBufferInit fun _ => 7#64) := by
  have hcovers : CoversBuffers [0xfffffffe#64] := by
    show 32 ≤ 64 * 1
    decide
  have hfree : ∃ id, ¬ Lent [0xfffffffe#64] id := ⟨0, by decide +kernel⟩
  have hnear : ¬ TooFar rpcmsgQueueInit.prod rpcmsgQueueInit.prod.tail := by decide
  rw [request_outcome_iff hcovers .user rpcmsgQueueInit rpcmsgBufferInit fun _ => 7#64]
  exact ⟨hfree, hnear⟩

/-- With all 32 buffers lent and an empty queue the request does not return -1: it writes its words
through NULL. -/
theorem request_null_write :
    (∀ id, Lent [0xffffffff#64] id) ∧
      rpcmsgRequest .user [0xffffffff#64] rpcmsgQueueInit rpcmsgBufferInit (fun _ => 7#64)
        = .nullWrite := by
  have hall : ∀ id, Lent [0xffffffff#64] id := by decide +kernel
  have hcovers : CoversBuffers [0xffffffff#64] := by
    show 32 ≤ 64 * 1
    decide
  exact ⟨hall, request_of_all_lent hcovers hall .user _ _ _⟩

end TiiSel4Vm.RpcQueue
