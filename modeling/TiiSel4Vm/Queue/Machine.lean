import Mathlib.Data.BitVec
import Mathlib.Data.Fintype.Basic
import Mathlib.Logic.Function.Basic
import Mathlib.Tactic.Common

/-!
# The rpcmsg queue: shared memory and one thread's atomic steps

`include/sel4/rpc_queue.h` is a many-producer many-consumer ring of 32 entries.  Each side of the
ring (`prod`, `cons`) is a bound with two 64-bit markers, each a position and an operation count:
`tail` is where the next thread of that side acquires an entry, `head` is how far entries of that
side are committed.

This file is the code at the granularity of its atomic accesses, one per step:

* `acquireStep` — `rpcmsg_tail_wait` and the retry loop of `rpcmsg_acquire_prod_entry` and
  `rpcmsg_acquire_cons_entry`;
* `commitStep` — `rpcmsg_commit_update`;
* `bodyStep` — the four element functions handed to `rpcmsg_enqueue` and `rpcmsg_dequeue`, one
  memory word a step;
* `threadStep` — `rpcmsg_enqueue` / `rpcmsg_dequeue` around them, from call to return.

Local computation between two accesses belongs to the access before it.  Every step also reports an
`Event`; nothing in the code reads it.
-/

namespace TiiSel4Vm.RpcQueue

/-! ### Shared memory -/

/-- `seL4_Word`. -/
abbrev Word := BitVec 64

/-- `RPCMSG_BUFFER_SIZE`. -/
abbrev rpcmsgBufferSize : ℕ := 32

/-- `RPCMSG_HTD_MAX`. -/
abbrev rpcmsgHtdMax : ℕ := rpcmsgBufferSize / 4

/-- `rpcmsg_t`: the words `mr0` to `mr3`. -/
abbrev RpcMsg := Fin 4 → Word

/-- `mr0` of `rpcmsg_t`; the other words follow. -/
abbrev mr0 : Fin 4 := 0

abbrev mr1 : Fin 4 := 1

abbrev mr2 : Fin 4 := 2

abbrev mr3 : Fin 4 := 3

/-- `rpcmsg_buffer_t`. -/
abbrev RpcMsgBuffer := Fin rpcmsgBufferSize → RpcMsg

/-- `rpcmsg_marker_t`: the two halves of the 64-bit word. -/
structure Marker where
  pos : BitVec 32
  count : BitVec 32
  deriving DecidableEq, Repr

/-- The marker one acquisition later: `nt` in the acquire loops. -/
def Marker.next (m : Marker) : Marker := ⟨m.pos + 1#32, m.count + 1#32⟩

/-- `rpcmsg_queue_bound_t`. -/
structure Bound where
  tail : Marker
  head : Marker
  deriving DecidableEq, Repr

/-- The two sides of a queue. -/
inductive Side where
  | prod
  | cons
  deriving DecidableEq, Repr

/-- `rpcmsg_queue_t`. -/
structure Queue where
  prod : Bound
  cons : Bound
  ring : Fin rpcmsgBufferSize → BitVec 16
  deriving DecidableEq

namespace Queue

def bound (q : Queue) : Side → Bound
  | .prod => q.prod
  | .cons => q.cons

def setBound (q : Queue) (b : Bound) : Side → Queue
  | .prod => { q with prod := b }
  | .cons => { q with cons := b }

@[simp] theorem bound_setBound (q : Queue) (b : Bound) (s : Side) :
    (q.setBound b s).bound s = b := by
  cases s <;> rfl

theorem bound_setBound_ne (q : Queue) (b : Bound) {s r : Side} (h : r ≠ s) :
    (q.setBound b s).bound r = q.bound r := by
  cases s <;> cases r <;> first | rfl | exact absurd rfl h

@[simp] theorem setBound_ring (q : Queue) (b : Bound) (s : Side) :
    (q.setBound b s).ring = q.ring := by
  cases s <;> rfl

@[simp] theorem setBound_bound (q : Queue) (s : Side) : q.setBound (q.bound s) s = q := by
  cases s <;> rfl

@[simp] theorem setBound_mk (q : Queue) (s : Side) :
    q.setBound ⟨(q.bound s).tail, (q.bound s).head⟩ s = q :=
  setBound_bound q s

@[simp] theorem bound_ring_update (q : Queue) (r : Fin rpcmsgBufferSize → BitVec 16) (s : Side) :
    ({ q with ring := r } : Queue).bound s = q.bound s := by
  cases s <;> rfl

end Queue

def Marker.zero : Marker := ⟨0#32, 0#32⟩

/-- `rpcmsg_queue_init`. -/
def rpcmsgQueueInit : Queue :=
  ⟨⟨.zero, .zero⟩, ⟨.zero, .zero⟩, fun _ => 0#16⟩

/-- `rpcmsg_buffer_init`. -/
def rpcmsgBufferInit : RpcMsgBuffer := fun _ _ => 0#64

/-! ### Compare-and-swap -/

/-- The two definitions of `atomic_compare_and_swap`: the compiler builtin, which stores the value
found in `*_o` when it fails, and the `__KERNEL__` one, which leaves `*_o` alone. -/
inductive CasVariant where
  | user
  | kernel
  deriving DecidableEq, Repr

/-- `atomic_compare_and_swap`: the result, the new memory and the new `*_o`. -/
def atomicCompareAndSwap (v : CasVariant) (mem old new : Marker) : Bool × Marker × Marker :=
  if mem = old then (true, new, old)
  else
    match v with
    | .user => (false, mem, mem)
    | .kernel => (false, mem, old)

/-! ### Acquiring an entry -/

/-- A thread inside an acquire function, with the local copy `ot` of the tail. -/
inductive Acquire where
  /-- before the first `atomic_load_acquire(&tail.raw)` -/
  | load
  /-- in `rpcmsg_tail_wait`, before the volatile read of `head.pos` -/
  | wait (ot : Marker)
  /-- in the body of the wait loop, before the tail is loaded again -/
  | reload
  /-- before the volatile read of the other side's `head.pos` -/
  | check (ot : Marker)
  /-- before the compare-and-swap of the tail -/
  | cas (ot : Marker)
  deriving DecidableEq, Repr

inductive AcquireResult where
  | more (a : Acquire)
  | full
  | got (entry : BitVec 32)
  deriving DecidableEq, Repr

/-- `entries`: free slots for a producer, committed messages for a consumer, as seen from the local
copy `ot` of that side's tail. -/
def entries (s : Side) (q : Queue) (ot : Marker) : BitVec 32 :=
  match s with
  | .prod => BitVec.ofNat 32 rpcmsgBufferSize + q.cons.head.pos - ot.pos
  | .cons => q.prod.head.pos - ot.pos

/-- The condition of the loop in `rpcmsg_tail_wait`. -/
abbrev TooFar (b : Bound) (ot : Marker) : Prop := rpcmsgHtdMax < (ot.pos - b.head.pos).toNat

/-- One atomic step of an acquire function on side `s`: the loop that `rpcmsg_acquire_prod_entry`
and `rpcmsg_acquire_cons_entry` share, with the bound and the `entries` of the side. -/
def acquireStep (v : CasVariant) (s : Side) (q : Queue) : Acquire → Queue × AcquireResult
  | .load => (q, .more (.wait (q.bound s).tail))
  | .wait ot => (q, .more (if TooFar (q.bound s) ot then .reload else .check ot))
  | .reload => (q, .more (.wait (q.bound s).tail))
  | .check ot => (q, if entries s q ot = 0#32 then .full else .more (.cas ot))
  | .cas ot =>
      match atomicCompareAndSwap v (q.bound s).tail ot ot.next with
      | (true, mem, _) => (q.setBound { q.bound s with tail := mem } s, .got ot.pos)
      | (false, mem, old) => (q.setBound { q.bound s with tail := mem } s, .more (.wait old))

/-- `rpcmsg_acquire_prod_entry`, step by step. -/
def rpcmsgAcquireProdEntry (v : CasVariant) : Queue → Acquire → Queue × AcquireResult :=
  acquireStep v .prod

/-- `rpcmsg_acquire_cons_entry`, step by step. -/
def rpcmsgAcquireConsEntry (v : CasVariant) : Queue → Acquire → Queue × AcquireResult :=
  acquireStep v .cons

/-! ### Committing an entry -/

/-- A thread inside `rpcmsg_commit_update`, with its local copies `oh` of the head and `t` of the
tail. -/
inductive Commit where
  /-- before the load of the head -/
  | load
  /-- before the load of the tail -/
  | loadTail (oh : Marker)
  /-- before the compare-and-swap of the head -/
  | cas (oh t : Marker)
  deriving DecidableEq, Repr

/-- `++nh.marker.count == t.marker.count`: no other operation of this side was in progress. -/
abbrev LastCommitter (oh t : Marker) : Prop := oh.count + 1#32 = t.count

/-- `nh`. -/
def newHead (oh t : Marker) : Marker :=
  if LastCommitter oh t then ⟨t.pos, oh.count + 1#32⟩ else ⟨oh.pos, oh.count + 1#32⟩

/-- One atomic step of `rpcmsg_commit_update`; `none` once it has returned. -/
def commitStep (v : CasVariant) (b : Bound) : Commit → Bound × Option Commit
  | .load => (b, some (.loadTail b.head))
  | .loadTail oh => (b, some (.cas oh b.tail))
  | .cas oh t =>
      match atomicCompareAndSwap v b.head oh (newHead oh t) with
      | (true, mem, _) => ({ b with head := mem }, none)
      | (false, mem, old) => ({ b with head := mem }, some (.loadTail old))

/-! ### The element functions -/

/-- An operation on a queue.  A pointer into the message table is the index of the message. -/
inductive Op where
  /-- `rpcmsg_enqueue` with `rpcmsg_event_enqueue_fn` -/
  | eventTx (msg : RpcMsg)
  /-- `rpcmsg_dequeue` with `rpcmsg_event_dequeue_fn` -/
  | eventRx
  /-- `rpcmsg_enqueue` with `rpcmsg_rpc_enqueue_fn` -/
  | rpcEnqueue (msg : Fin rpcmsgBufferSize)
  /-- `rpcmsg_dequeue` with `rpcmsg_rpc_dequeue_fn` -/
  | rpcDequeue
  deriving DecidableEq

def Op.side : Op → Side
  | .eventTx _ => .prod
  | .eventRx => .cons
  | .rpcEnqueue _ => .prod
  | .rpcDequeue => .cons

/-- What a dequeue hands to its caller. -/
inductive Out where
  | nothing
  | copy (msg : RpcMsg)
  | pointer (msg : Fin rpcmsgBufferSize)
  deriving DecidableEq

/-- A thread inside an element function. -/
inductive Body where
  /-- in the `memcpy` of an event into its message; `done` are the words already written -/
  | copyTo (done : Finset (Fin 4))
  /-- before the message id is written to the ring -/
  | ringWrite (id : Fin rpcmsgBufferSize)
  /-- before the message id is read from the ring -/
  | ringRead
  /-- in the `memcpy` of message `id` to the caller -/
  | copyFrom (id : Fin rpcmsgBufferSize) (done : Finset (Fin 4)) (data : RpcMsg)
  deriving DecidableEq

def Op.body : Op → Body
  | .eventTx _ => .copyTo ∅
  | .eventRx => .ringRead
  | .rpcEnqueue msg => .ringWrite msg
  | .rpcDequeue => .ringRead

/-- `entry & RPCMSG_BUFFER_MASK`. -/
def ringIndex (entry : BitVec 32) : Fin rpcmsgBufferSize :=
  ⟨(entry &&& BitVec.ofNat 32 (rpcmsgBufferSize - 1)).toNat, by
    rw [BitVec.toNat_and]
    exact Nat.lt_of_le_of_lt Nat.and_le_right (by decide)⟩

/-- The ring index of an unbounded position. -/
def slotOf (p : ℕ) : Fin rpcmsgBufferSize := ⟨p % rpcmsgBufferSize, Nat.mod_lt _ (by decide)⟩

/-- Masking the wrapped position is indexing by the unbounded one. -/
theorem ringIndex_ofNat (p : ℕ) : ringIndex (BitVec.ofNat 32 p) = slotOf p := by
  apply Fin.ext
  show (BitVec.ofNat 32 p &&& BitVec.ofNat 32 (rpcmsgBufferSize - 1)).toNat = p % 32
  have hmask : (BitVec.ofNat 32 (rpcmsgBufferSize - 1)).toNat = 2 ^ 5 - 1 := by decide
  rw [BitVec.toNat_and, hmask, Nat.and_two_pow_sub_one_eq_mod, BitVec.toNat_ofNat]
  omega

inductive BodyResult where
  | more (b : Body)
  | finished (out : Out)
  /-- a failed `rpc_assert` -/
  | abort
  deriving DecidableEq

/-- `rpcmsg_id_to_msg`: the assertion that the id is in range. -/
def rpcmsgIdToMsg (id : BitVec 16) : Option (Fin rpcmsgBufferSize) :=
  if h : id.toNat < rpcmsgBufferSize then some ⟨id.toNat, h⟩ else none

/-- `rpcmsg_msg_to_id`. -/
def rpcmsgMsgToId (msg : Fin rpcmsgBufferSize) : BitVec 16 := BitVec.ofNat 16 msg.val

@[simp] theorem rpcmsgIdToMsg_msgToId (msg : Fin rpcmsgBufferSize) :
    rpcmsgIdToMsg (rpcmsgMsgToId msg) = some msg := by
  have hlt : msg.val < 32 := msg.isLt
  have hval : (rpcmsgMsgToId msg).toNat = msg.val := by
    rw [rpcmsgMsgToId, BitVec.toNat_ofNat]
    omega
  simp [rpcmsgIdToMsg, hval]

/-- One memory access of an element function at ring index `idx`.  `memcpy` moves the words in any
order, so the word it moves next is the argument `i`. -/
def bodyStep (op : Op) (idx : Fin rpcmsgBufferSize) (q : Queue) (buf : RpcMsgBuffer) :
    Body → Option (Fin 4) → Option (Queue × RpcMsgBuffer × BodyResult)
  | .copyTo done, some i =>
      match op with
      | .eventTx msg =>
          if i ∈ done then none
          else
            let buf' := Function.update buf idx (Function.update (buf idx) i (msg i))
            some (q, buf', .more
              (if insert i done = Finset.univ then .ringWrite idx else .copyTo (insert i done)))
      | _ => none
  | .ringWrite id, none =>
      some ({ q with ring := Function.update q.ring idx (rpcmsgMsgToId id) }, buf,
        .finished .nothing)
  | .ringRead, none =>
      match rpcmsgIdToMsg (q.ring idx) with
      | none => some (q, buf, .abort)
      | some id =>
          match op with
          | .eventRx => some (q, buf, .more (.copyFrom id ∅ fun _ => 0#64))
          | _ => some (q, buf, .finished (.pointer id))
  | .copyFrom id done data, some i =>
      if i ∈ done then none
      else
        let data' := Function.update data i (buf id i)
        some (q, buf,
          if insert i done = Finset.univ then .finished (.copy data')
          else .more (.copyFrom id (insert i done) data'))
  | _, _ => none

/-! ### A thread, from call to return -/

inductive Pc where
  | idle
  | acquiring (op : Op) (a : Acquire)
  | body (op : Op) (entry : BitVec 32) (b : Body)
  | committing (op : Op) (out : Out) (c : Commit)
  | returned (op : Op) (ret : ℤ) (out : Out)
  | aborted
  deriving DecidableEq

/-- Between acquiring an entry of side `s` and committing it. -/
def Pc.InFlight (s : Side) : Pc → Prop
  | .body op _ _ => op.side = s
  | .committing op _ _ => op.side = s
  | _ => False

instance (s : Side) : DecidablePred (Pc.InFlight s) := fun pc => by
  cases pc <;> unfold Pc.InFlight <;> infer_instance

/-- What a step did, for the history of the queue. -/
inductive Event where
  | silent
  /-- the tail of side `s` was loaded into `ot` -/
  | loadedTail (s : Side)
  /-- an acquire function returned an entry -/
  | acquired (op : Op)
  /-- the operation failed: queue full or empty -/
  | failed (op : Op)
  /-- the head of side `s` was loaded into `oh` -/
  | loadedHead (s : Side)
  /-- the tail of side `s` was loaded into `t` -/
  | sampledTail (s : Side)
  /-- the commit took effect; `publish` when it also moved the head position -/
  | committed (op : Op) (publish : Bool) (out : Out)
  deriving DecidableEq

/-- What a thread does next: call an operation, make the next access (naming the word it moves in a
`memcpy`), or leave the operation that has returned. -/
inductive Act where
  | call (op : Op)
  | step (word : Option (Fin 4))
  | leave
  deriving DecidableEq

/-- The value of the marker a failed compare-and-swap leaves in `*_o` was loaded by it. -/
def casEvent (v : CasVariant) (e : Event) : Event :=
  match v with
  | .user => e
  | .kernel => .silent

/-- The event of an acquire step. -/
def acquireEvent (v : CasVariant) (op : Op) : Acquire → AcquireResult → Event
  | _, .got _ => .acquired op
  | _, .full => .failed op
  | .load, .more _ => .loadedTail op.side
  | .reload, .more _ => .loadedTail op.side
  | .cas _, .more _ => casEvent v (.loadedTail op.side)
  | _, .more _ => .silent

/-- The event of a commit step. -/
def commitEvent (v : CasVariant) (op : Op) (out : Out) : Commit → Option Commit → Event
  | .cas oh t, none => .committed op (decide (LastCommitter oh t)) out
  | .load, _ => .loadedHead op.side
  | .loadTail _, _ => .sampledTail op.side
  | .cas _ _, some _ => casEvent v (.loadedHead op.side)

/-- Where an element function's result leaves the thread. -/
def BodyResult.pc (op : Op) (entry : BitVec 32) : BodyResult → Pc
  | .more b => .body op entry b
  | .finished out => .committing op out .load
  | .abort => .aborted

/-- **One step of a thread** inside `rpcmsg_enqueue` or `rpcmsg_dequeue`. -/
def threadStep (v : CasVariant) (q : Queue) (buf : RpcMsgBuffer) :
    Pc → Act → Option (Queue × RpcMsgBuffer × Pc × Event)
  | .idle, .call op => some (q, buf, .acquiring op .load, .silent)
  | .acquiring op a, .step none =>
      let r := acquireStep v op.side q a
      some (r.1, buf,
        match r.2 with
        | .more a' => .acquiring op a'
        | .full => .returned op (-1) .nothing
        | .got entry => .body op entry op.body,
        acquireEvent v op a r.2)
  | .body op entry b, .step word =>
      (bodyStep op (ringIndex entry) q buf b word).map fun r =>
        (r.1, r.2.1, r.2.2.pc op entry, .silent)
  | .committing op out c, .step none =>
      let r := commitStep v (q.bound op.side) c
      some (q.setBound r.1 op.side, buf,
        match r.2 with
        | some c' => .committing op out c'
        | none => .returned op 0 out,
        commitEvent v op out c r.2)
  | .returned _ _ _, .leave => some (q, buf, .idle, .silent)
  | _, _ => none

end TiiSel4Vm.RpcQueue
