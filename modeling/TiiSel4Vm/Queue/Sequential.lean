import TiiSel4Vm.Queue.Order

/-!
# Whole operations on a queue with no other operation in progress

`runAlone` runs a thread that meets no other one from its call to its return.  A queue in which
nothing is in progress is a FIFO list of message ids (`Represents`), and `rpcmsg_enqueue` and
`rpcmsg_dequeue` are the list operations:

* `enqueue_represents`, `enqueue_full` — append, or -1 when the list has 32 elements;
* `dequeue_represents`, `dequeue_empty` — take the first element, or -1 when there is none;
* `eventRx_represents`, `eventRx_empty` — the same of `rpcmsg_event_rx`, which hands out a copy.
-/

namespace TiiSel4Vm.RpcQueue

open TiiSel4Vm.WrapCounter

/-! ### Running alone -/

/-- Run a thread until its operation returns; `none` if it has not after `fuel` accesses. -/
def runAlone (v : CasVariant) : ℕ → Queue → RpcMsgBuffer → Pc →
    Option (Queue × RpcMsgBuffer × ℤ × Out)
  | _, q, buf, .returned _ ret out => some (q, buf, ret, out)
  | 0, _, _, _ => none
  | fuel + 1, q, buf, pc =>
      match threadStep v q buf pc (.step none) with
      | some (q', buf', pc', _) => runAlone v fuel q' buf' pc'
      | none => none

/-- The accesses of an rpc operation that meets no other thread. -/
abbrev rpcAccesses : ℕ := 8

/-- `rpcmsg_enqueue` with `rpcmsg_rpc_enqueue_fn`. -/
def rpcmsgEnqueue (v : CasVariant) (q : Queue) (buf : RpcMsgBuffer) (msg : Fin rpcmsgBufferSize) :
    Option (Queue × RpcMsgBuffer × ℤ × Out) :=
  runAlone v rpcAccesses q buf (.acquiring (.rpcEnqueue msg) .load)

/-- `rpcmsg_dequeue` with `rpcmsg_rpc_dequeue_fn`. -/
def rpcmsgDequeue (v : CasVariant) (q : Queue) (buf : RpcMsgBuffer) :
    Option (Queue × RpcMsgBuffer × ℤ × Out) :=
  runAlone v rpcAccesses q buf (.acquiring .rpcDequeue .load)

section Alone

variable {v : CasVariant} {q q' : Queue} {buf buf' : RpcMsgBuffer} {out : Out} {m : Marker}

theorem runAlone_move {pc pc' : Pc} {e : Event} {fuel : ℕ}
    (h : Moves v q buf pc (.step none) q' buf' pc' e) :
    runAlone v (fuel + 1) q buf pc = runAlone v fuel q' buf' pc' := by
  have hstep := h.threadStep
  cases pc with
  | returned op ret out => simp [threadStep] at hstep
  | _ => simp only [runAlone, hstep]

/-- With head and tail together, the tail is not too far ahead. -/
theorem near_of_quiescent {s : Side} (hb : q.bound s = ⟨m, m⟩) :
    ¬ TooFar (q.bound s) (q.bound s).tail := by
  rw [hb]
  show ¬ rpcmsgHtdMax < (m.pos - m.pos).toNat
  simp

/-- No entries: the call returns -1 and changes nothing. -/
theorem runAlone_fails (op : Op) (hnear : ¬ TooFar (q.bound op.side) (q.bound op.side).tail)
    (hzero : entries op.side q (q.bound op.side).tail = 0#32) :
    runAlone v rpcAccesses q buf (.acquiring op .load) = some (q, buf, -1, .nothing) := by
  rw [runAlone_move (.load op), runAlone_move (.near op _ hnear),
    runAlone_move (.full op _ hzero)]
  rfl

/-- Entries left: the call acquires the next one, runs its element function and commits. -/
theorem runAlone_succeeds (op : Op) (hnear : ¬ TooFar (q.bound op.side) (q.bound op.side).tail)
    (hroom : entries op.side q (q.bound op.side).tail ≠ 0#32)
    (hbody : bodyStep op (ringIndex (q.bound op.side).tail.pos)
      (q.setBound ⟨(q.bound op.side).tail.next, (q.bound op.side).head⟩ op.side) buf op.body none
        = some (q', buf', .finished out)) :
    runAlone v rpcAccesses q buf (.acquiring op .load)
      = some (q'.setBound ⟨(q.bound op.side).tail.next,
          newHead (q.bound op.side).head (q.bound op.side).tail.next⟩ op.side, buf', 0, out) := by
  have hbound : q'.bound op.side = ⟨(q.bound op.side).tail.next, (q.bound op.side).head⟩ := by
    rw [(bodyStep_frame hbody).1, Queue.bound_setBound]
  rw [runAlone_move (.load op), runAlone_move (.near op _ hnear),
    runAlone_move (.room op _ hroom), runAlone_move (.acquire op _ rfl),
    runAlone_move (.body op _ op.body none hbody)]
  show runAlone v 3 q' buf' (.committing op out .load) = _
  rw [runAlone_move (.loadHead op out), runAlone_move (.sampleTail op out _), hbound,
    runAlone_move (.commit op out _ _ (by rw [hbound])), hbound]
  rfl

/-- The committer of the only operation moves the head to the tail. -/
theorem newHead_next (m : Marker) : newHead m m.next = m.next := by
  simp [newHead, LastCommitter, Marker.next]

theorem runAlone_fails_quiescent (op : Op) (hb : q.bound op.side = ⟨m, m⟩)
    (hzero : entries op.side q m = 0#32) :
    runAlone v rpcAccesses q buf (.acquiring op .load) = some (q, buf, -1, .nothing) :=
  runAlone_fails op (near_of_quiescent hb) (by rw [hb]; exact hzero)

theorem runAlone_succeeds_quiescent (op : Op) (hb : q.bound op.side = ⟨m, m⟩)
    (hroom : entries op.side q m ≠ 0#32)
    (hbody : bodyStep op (ringIndex m.pos) (q.setBound ⟨m.next, m⟩ op.side) buf op.body none
      = some (q', buf', .finished out)) :
    runAlone v rpcAccesses q buf (.acquiring op .load)
      = some (q'.setBound ⟨m.next, m.next⟩ op.side, buf', 0, out) := by
  have hroom' : entries op.side q (q.bound op.side).tail ≠ 0#32 := by
    rw [hb]
    exact hroom
  have hbody' : bodyStep op (ringIndex (q.bound op.side).tail.pos)
      (q.setBound ⟨(q.bound op.side).tail.next, (q.bound op.side).head⟩ op.side) buf op.body none
        = some (q', buf', .finished out) := by
    rw [hb]
    exact hbody
  rw [runAlone_succeeds op (near_of_quiescent hb) hroom' hbody', hb, newHead_next]

end Alone

/-! ### The queue as a list -/

/-- Nothing is in progress, `c` entries were consumed so far, and the ids `xs` are queued. -/
structure Represents (q : Queue) (c : ℕ) (xs : List (Fin rpcmsgBufferSize)) : Prop where
  length_le : xs.length ≤ rpcmsgBufferSize
  prod : q.prod = ⟨wrapped (c + xs.length), wrapped (c + xs.length)⟩
  cons : q.cons = ⟨wrapped c, wrapped c⟩
  ring : ∀ i (h : i < xs.length), q.ring (slotOf (c + i)) = rpcmsgMsgToId xs[i]

/-- `rpcmsg_queue_init` leaves an empty queue. -/
theorem represents_init : Represents rpcmsgQueueInit 0 [] where
  length_le := Nat.zero_le _
  prod := rfl
  cons := rfl
  ring _ h := absurd h (Nat.not_lt_zero _)

/-- What is in the ring between the consumers' tail and the producers' head. -/
def Queue.contents (q : Queue) : List (BitVec 16) :=
  (List.range (q.prod.head.pos - q.cons.tail.pos).toNat).map fun i =>
    q.ring (ringIndex (q.cons.tail.pos + BitVec.ofNat 32 i))

section Fifo

variable {v : CasVariant} {q : Queue} {buf : RpcMsgBuffer} {c : ℕ}
  {xs : List (Fin rpcmsgBufferSize)} {msg : Fin rpcmsgBufferSize}

theorem Represents.entries_prod (h : Represents q c xs) :
    entries .prod q (wrapped (c + xs.length)) = BitVec.ofNat 32 (rpcmsgBufferSize - xs.length) := by
  have hle := h.length_le
  have hsum : BitVec.ofNat 32 rpcmsgBufferSize + BitVec.ofNat 32 c
      = BitVec.ofNat 32 (rpcmsgBufferSize - xs.length) + BitVec.ofNat 32 (c + xs.length) := by
    rw [← BitVec.ofNat_add, ← BitVec.ofNat_add]
    congr 1
    omega
  simp only [entries, h.cons, wrapped]
  rw [hsum, BitVec.add_sub_cancel]

theorem Represents.entries_cons (h : Represents q c xs) :
    entries .cons q (wrapped c) = BitVec.ofNat 32 xs.length := by
  simp only [entries, h.prod, wrapped]
  rw [BitVec.ofNat_add, BitVec.add_comm, BitVec.add_sub_cancel]

theorem Represents.contents (h : Represents q c xs) : q.contents = xs.map rpcmsgMsgToId := by
  have hle := h.length_le
  have hcount : (q.prod.head.pos - q.cons.tail.pos).toNat = xs.length := by
    simp only [h.prod, h.cons, wrapped]
    rw [wrap_sub_toNat (Nat.le_add_right c _) (by simp only [rpcmsgBufferSize] at hle; omega)]
    omega
  refine List.ext_getElem (by simp [Queue.contents, hcount]) fun i _ hi => ?_
  rw [List.length_map] at hi
  simp only [Queue.contents, List.getElem_map, List.getElem_range, h.cons, wrapped]
  rw [← BitVec.ofNat_add, ringIndex_ofNat]
  exact h.ring i hi

theorem ofNat_eq_zero_iff {n : ℕ} (h : n ≤ rpcmsgBufferSize) :
    BitVec.ofNat 32 n = 0#32 ↔ n = 0 := by
  constructor
  · intro hzero
    exact (wrap_inj (Nat.zero_le n) (by simp only [rpcmsgBufferSize] at h; omega) hzero.symm).symm
  · rintro rfl
    rfl

/-- Two live positions have different slots. -/
theorem slotOf_ne {c i j : ℕ} (hi : i < rpcmsgBufferSize) (hj : j < rpcmsgBufferSize)
    (hne : i ≠ j) : slotOf (c + i) ≠ slotOf (c + j) := by
  intro h
  have := mod_inj_in_window (Nat.le_add_right c i) (Nat.add_lt_add_left hi c)
    (Nat.le_add_right c j) (Nat.add_lt_add_left hj c) (congrArg Fin.val h)
  omega

/-- **Enqueue appends.** -/
theorem enqueue_represents (v : CasVariant) (buf : RpcMsgBuffer) (msg : Fin rpcmsgBufferSize)
    (h : Represents q c xs) (hroom : xs.length < rpcmsgBufferSize) :
    ∃ q', rpcmsgEnqueue v q buf msg = some (q', buf, 0, .nothing) ∧
      Represents q' c (xs ++ [msg]) := by
  have hentries : entries .prod q (wrapped (c + xs.length)) ≠ 0#32 := by
    rw [h.entries_prod, Ne, ofNat_eq_zero_iff (Nat.sub_le _ _)]
    omega
  refine ⟨_, runAlone_succeeds_quiescent (.rpcEnqueue msg) h.prod hentries rfl, ?_⟩
  have hidx : ringIndex (wrapped (c + xs.length)).pos = slotOf (c + xs.length) := ringIndex_ofNat _
  refine
    { length_le := ?_, prod := ?_, cons := h.cons, ring := fun i hi => ?_ }
  · rw [List.length_append, List.length_singleton]
    exact hroom
  · rw [List.length_append, List.length_singleton, ← Nat.add_assoc, ← wrapped_next]
    rfl
  · show Function.update q.ring (ringIndex (wrapped (c + xs.length)).pos) (rpcmsgMsgToId msg)
      (slotOf (c + i)) = _
    rw [hidx]
    rw [List.length_append, List.length_singleton] at hi
    by_cases hlast : i = xs.length
    · subst hlast
      rw [Function.update_self, List.getElem_concat_length]
      rfl
    · have hlt : i < xs.length := by omega
      rw [Function.update_of_ne (slotOf_ne (by omega) hroom hlast), List.getElem_append_left hlt]
      exact h.ring i hlt

/-- A full queue. -/
theorem enqueue_full (h : Represents q c xs) (hfull : xs.length = rpcmsgBufferSize) :
    rpcmsgEnqueue v q buf msg = some (q, buf, -1, .nothing) := by
  have hzero : entries .prod q (wrapped (c + xs.length)) = 0#32 := by
    rw [h.entries_prod, hfull, Nat.sub_self]
  exact runAlone_fails_quiescent (.rpcEnqueue msg) h.prod hzero

/-- The consumer took the first element and committed. -/
theorem Represents.popped (h : Represents q c (msg :: xs)) :
    Represents (q.setBound ⟨(wrapped c).next, (wrapped c).next⟩ .cons) (c + 1) xs := by
  refine
    { length_le := ?_, prod := ?_, cons := ?_, ring := fun i hi => ?_ }
  · exact le_trans (Nat.le_succ _) h.length_le
  · show q.prod = _
    rw [h.prod, List.length_cons, Nat.add_assoc, Nat.add_comm 1]
  · show Bound.mk (wrapped c).next (wrapped c).next = _
    rw [wrapped_next]
  · show q.ring (slotOf (c + 1 + i)) = _
    have hnext := h.ring (i + 1) (by simpa using hi)
    rw [Nat.add_assoc, Nat.add_comm 1]
    exact hnext

/-- The entry a consumer sees. -/
theorem Represents.entries_cons_ne (h : Represents q c (msg :: xs)) :
    entries .cons q (wrapped c) ≠ 0#32 := by
  rw [h.entries_cons, Ne, ofNat_eq_zero_iff h.length_le]
  simp

/-- The id in the consumer's entry. -/
theorem Represents.first (h : Represents q c (msg :: xs)) :
    q.ring (ringIndex (wrapped c).pos) = rpcmsgMsgToId msg := by
  have hidx : ringIndex (wrapped c).pos = slotOf (c + 0) := ringIndex_ofNat c
  rw [hidx]
  exact h.ring 0 (by simp)

/-- **Dequeue takes the first id.** -/
theorem dequeue_represents (v : CasVariant) (buf : RpcMsgBuffer)
    (h : Represents q c (msg :: xs)) :
    ∃ q', rpcmsgDequeue v q buf = some (q', buf, 0, .pointer msg) ∧
      Represents q' (c + 1) xs := by
  have hbody : bodyStep .rpcDequeue (ringIndex (wrapped c).pos)
      (q.setBound ⟨(wrapped c).next, wrapped c⟩ .cons) buf Op.rpcDequeue.body none
      = some (q.setBound ⟨(wrapped c).next, wrapped c⟩ .cons, buf, .finished (.pointer msg)) := by
    simp only [Op.body, bodyStep, Queue.setBound_ring, h.first, rpcmsgIdToMsg_msgToId]
  exact ⟨_, runAlone_succeeds_quiescent .rpcDequeue h.cons h.entries_cons_ne hbody, h.popped⟩

/-- An empty queue. -/
theorem dequeue_empty (h : Represents q c []) :
    rpcmsgDequeue v q buf = some (q, buf, -1, .nothing) := by
  have hzero : entries .cons q (wrapped c) = 0#32 := h.entries_cons
  exact runAlone_fails_quiescent .rpcDequeue h.cons hzero

end Fifo

/-! ### Events -/

/-- The word that `memcpy` moves next, when it moves them in order. -/
def Pc.nextWord : Pc → Option (Fin 4)
  | .body _ _ (.copyTo done) => (List.finRange 4).find? fun i => i ∉ done
  | .body _ _ (.copyFrom _ done _) => (List.finRange 4).find? fun i => i ∉ done
  | _ => none

/-- Run a thread, copying words in order, until its operation returns. -/
def runCopying (v : CasVariant) : ℕ → Queue → RpcMsgBuffer → Pc →
    Option (Queue × RpcMsgBuffer × ℤ × Out)
  | _, q, buf, .returned _ ret out => some (q, buf, ret, out)
  | 0, _, _, _ => none
  | fuel + 1, q, buf, pc =>
      match threadStep v q buf pc (.step pc.nextWord) with
      | some (q', buf', pc', _) => runCopying v fuel q' buf' pc'
      | none => none

/-- The accesses of an event operation that meets no other thread. -/
abbrev eventAccesses : ℕ := 12

/-- `rpcmsg_event_rx`; the message is `none` if it does not return 0. -/
def rpcmsgEventRx (v : CasVariant) (q : Queue) (buf : RpcMsgBuffer) :
    Option (Queue × Option RpcMsg) :=
  match runCopying v eventAccesses q buf (.acquiring .eventRx .load) with
  | none => none
  | some (q', _, ret, .copy msg) => some (q', if ret = 0 then some msg else none)
  | some (q', _, _, _) => some (q', none)

section Copying

variable {v : CasVariant} {q q' : Queue} {buf buf' : RpcMsgBuffer} {c : ℕ}
  {xs : List (Fin rpcmsgBufferSize)} {msg : Fin rpcmsgBufferSize}

theorem runCopying_move {pc pc' : Pc} {e : Event} {fuel : ℕ}
    (h : Moves v q buf pc (.step pc.nextWord) q' buf' pc' e) :
    runCopying v (fuel + 1) q buf pc = runCopying v fuel q' buf' pc' := by
  have hstep := h.threadStep
  cases pc with
  | returned op ret out => simp [threadStep] at hstep
  | _ => simp only [runCopying, hstep]

/-- A word of a message is copied, and others are still to come. -/
theorem runCopying_word {done : Finset (Fin 4)} {i : Fin 4} (entry : BitVec 32) (data : RpcMsg)
    (fuel : ℕ) (hnext : (List.finRange 4).find? (fun j => j ∉ done) = some i) (hi : i ∉ done)
    (hmore : insert i done ≠ Finset.univ) :
    runCopying v (fuel + 1) q buf (.body .eventRx entry (.copyFrom msg done data))
      = runCopying v fuel q buf (.body .eventRx entry
          (.copyFrom msg (insert i done) (Function.update data i (buf msg i)))) := by
  simp only [runCopying, Pc.nextWord, hnext, threadStep, bodyStep, if_neg hi, if_neg hmore,
    Option.map_some, BodyResult.pc]

/-- The four words of a message are copied. -/
theorem runCopying_copyFrom (entry : BitVec 32) (data : RpcMsg) (fuel : ℕ) :
    runCopying v (fuel + 4) q buf (.body .eventRx entry (.copyFrom msg ∅ data))
      = runCopying v fuel q buf (.committing .eventRx (.copy (buf msg)) .load) := by
  have hcopy : Function.update (Function.update (Function.update (Function.update data
      0 (buf msg 0)) 1 (buf msg 1)) 2 (buf msg 2)) 3 (buf msg 3) = buf msg := by
    funext i
    match i with
    | 0 => rfl
    | 1 => rfl
    | 2 => rfl
    | 3 => rfl
  rw [runCopying_word (i := 0) entry data (fuel + 3) (by decide) (by decide) (by decide),
    runCopying_word (i := 1) entry _ (fuel + 2) (by decide) (by decide) (by decide),
    runCopying_word (i := 2) entry _ (fuel + 1) (by decide) (by decide) (by decide)]
  have hnext : (List.finRange 4).find? (fun j => j ∉ insert 2 (insert 1 (insert 0
      (∅ : Finset (Fin 4))))) = some 3 := by decide
  have hi : (3 : Fin 4) ∉ insert 2 (insert 1 (insert 0 (∅ : Finset (Fin 4)))) := by decide
  have hlast : insert 3 (insert 2 (insert 1 (insert 0 (∅ : Finset (Fin 4))))) = Finset.univ := by
    decide
  simp only [runCopying, Pc.nextWord, hnext, threadStep, bodyStep, if_neg hi, if_pos hlast,
    Option.map_some, BodyResult.pc, hcopy]

/-- **`rpcmsg_event_rx` copies the first message.** -/
theorem eventRx_represents (v : CasVariant) (buf : RpcMsgBuffer) (h : Represents q c (msg :: xs)) :
    ∃ q', rpcmsgEventRx v q buf = some (q', some (buf msg)) ∧ Represents q' (c + 1) xs := by
  have hnear : ¬ TooFar (q.bound Op.eventRx.side) (q.bound Op.eventRx.side).tail :=
    near_of_quiescent (s := Op.eventRx.side) h.cons
  have hroom : entries Op.eventRx.side q (q.bound Op.eventRx.side).tail ≠ 0#32 := by
    show entries .cons q q.cons.tail ≠ 0#32
    rw [h.cons]
    exact h.entries_cons_ne
  have hread : bodyStep .eventRx (ringIndex (q.bound Op.eventRx.side).tail.pos)
      (q.setBound ⟨(q.bound Op.eventRx.side).tail.next, (q.bound Op.eventRx.side).head⟩
        Op.eventRx.side) buf Op.eventRx.body none
      = some (q.setBound ⟨(q.bound Op.eventRx.side).tail.next, (q.bound Op.eventRx.side).head⟩
        Op.eventRx.side, buf, .more (.copyFrom msg ∅ fun _ => 0#64)) := by
    have hfirst : q.ring (ringIndex (q.bound Op.eventRx.side).tail.pos) = rpcmsgMsgToId msg := by
      show q.ring (ringIndex q.cons.tail.pos) = _
      rw [h.cons]
      exact h.first
    simp only [Op.body, bodyStep, Queue.setBound_ring, hfirst, rpcmsgIdToMsg_msgToId]
  have hrun : runCopying v eventAccesses q buf (.acquiring .eventRx .load)
      = some (q.setBound ⟨(wrapped c).next, (wrapped c).next⟩ .cons, buf, 0, .copy (buf msg)) := by
    rw [runCopying_move (.load .eventRx), runCopying_move (.near .eventRx _ hnear),
      runCopying_move (.room .eventRx _ hroom), runCopying_move (.acquire .eventRx _ rfl),
      runCopying_move (.body .eventRx _ _ none hread)]
    show runCopying v (3 + 4) _ buf (.body .eventRx _ (.copyFrom msg ∅ _)) = _
    rw [runCopying_copyFrom, runCopying_move (.loadHead .eventRx _),
      runCopying_move (.sampleTail .eventRx _ _), runCopying_move (.commit .eventRx _ _ _ rfl)]
    show some ((q.setBound ⟨q.cons.tail.next, newHead q.cons.head q.cons.tail.next⟩ .cons), buf,
      (0 : ℤ), Out.copy (buf msg)) = _
    rw [h.cons, newHead_next]
  refine ⟨_, ?_, h.popped⟩
  simp only [rpcmsgEventRx, hrun, if_true]

/-- No event is queued. -/
theorem eventRx_empty (h : Represents q c []) : rpcmsgEventRx v q buf = some (q, none) := by
  have hnear : ¬ TooFar (q.bound Op.eventRx.side) (q.bound Op.eventRx.side).tail :=
    near_of_quiescent (s := Op.eventRx.side) h.cons
  have hzero : entries Op.eventRx.side q (q.bound Op.eventRx.side).tail = 0#32 := by
    show entries .cons q q.cons.tail = 0#32
    rw [h.cons]
    exact h.entries_cons
  have hrun : runCopying v eventAccesses q buf (.acquiring .eventRx .load)
      = some (q, buf, -1, .nothing) := by
    rw [runCopying_move (.load .eventRx), runCopying_move (.near .eventRx _ hnear),
      runCopying_move (.full .eventRx _ hzero)]
    rfl
  simp only [rpcmsgEventRx, hrun]

end Copying

end TiiSel4Vm.RpcQueue
