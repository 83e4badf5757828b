import Mathlib.Logic.Relation
import TiiSel4Vm.Queue.Sequential

/-!
# Full and empty queues

`rpcmsg_queue_full` compares the tails of the two sides and `rpcmsg_queue_empty` their heads, while
an operation compares its own side's tail with the other side's head.

* `Returns` — what a call returns that no other thread interrupts, with `memcpy` in any order;
* `returns_iff` — it depends on the entries that the side's tail leaves;
* `queue_predicates` — what the predicates say of that call, in any reachable state and with nothing
  in progress.
-/

namespace TiiSel4Vm.RpcQueue

open TiiSel4Vm.WrapCounter TiiSel4Vm.Transition

/-! ### The predicates -/

/-- `rpcmsg_queue_full`; `val` is where `pos` is. -/
def rpcmsgQueueFull (q : Queue) : Bool :=
  BitVec.ofNat 32 rpcmsgBufferSize + q.cons.tail.pos - q.prod.tail.pos = 0#32

/-- `rpcmsg_queue_empty`. -/
def rpcmsgQueueEmpty (q : Queue) : Bool := q.prod.head.pos = q.cons.head.pos

theorem Represents.empty_iff {q : Queue} {c : ℕ} {xs : List (Fin rpcmsgBufferSize)}
    (h : Represents q c xs) : rpcmsgQueueEmpty q = true ↔ xs = [] := by
  have hle := h.length_le
  rw [rpcmsgQueueEmpty, decide_eq_true_eq, h.prod, h.cons]
  constructor
  · intro he
    have hsize : rpcmsgBufferSize = 32 := rfl
    have hc : c = c + xs.length := wrap_inj (Nat.le_add_right c _) (by omega) he.symm
    exact List.eq_nil_of_length_eq_zero (by omega)
  · intro he
    rw [he]
    rfl

/-! ### A call that nobody interrupts -/

/-- A thread and the memory it works on. -/
abbrev Alone := Queue × RpcMsgBuffer × Pc

/-- The thread makes its next access. -/
def AloneStep (v : CasVariant) (x y : Alone) : Prop :=
  ∃ word e, threadStep v x.1 x.2.1 x.2.2 (.step word) = some (y.1, y.2.1, y.2.2, e)

/-- The call of `op` returns `ret` when nobody interrupts it. -/
def Returns (v : CasVariant) (q : Queue) (buf : RpcMsgBuffer) (op : Op) (ret : ℤ) : Prop :=
  ∃ q' buf' out, Relation.ReflTransGen (AloneStep v) (q, buf, .acquiring op .load)
    (q', buf', .returned op ret out)

theorem Moves.alone {v : CasVariant} {q q' : Queue} {buf buf' : RpcMsgBuffer} {pc pc' : Pc}
    {word : Option (Fin 4)} {e : Event} (h : Moves v q buf pc (.step word) q' buf' pc' e) :
    AloneStep v (q, buf, pc) (q', buf', pc') :=
  ⟨word, e, h.threadStep⟩

/-- A local copy of the tail is `m`. -/
def Acquire.Copies (m : Marker) : Acquire → Prop
  | .load => True
  | .reload => True
  | .wait ot => ot = m
  | .check ot => ot = m
  | .cas ot => ot = m

/-- What is known of a call on a queue whose side has tail `m`: nothing has changed yet and it is
still trying, or it has failed and there was no entry, or it is past its acquisition and there
was. -/
def AloneInv (q : Queue) (buf : RpcMsgBuffer) (op : Op) (m : Marker) (x : Alone) : Prop :=
  (x.1 = q ∧ x.2.1 = buf ∧
      ((∃ a, x.2.2 = .acquiring op a ∧ a.Copies m ∧
          ((∃ ot, a = .cas ot) → entries op.side q m ≠ 0#32)) ∨
        ((∃ out, x.2.2 = .returned op (-1) out) ∧ entries op.side q m = 0#32))) ∨
    (entries op.side q m ≠ 0#32 ∧ x.2.2.Past)

section Alone

variable {v : CasVariant} {q : Queue} {buf : RpcMsgBuffer} {op : Op} {x y : Alone}

theorem past_aloneStep (hx : x.2.2.Past) (h : AloneStep v x y) : y.2.2.Past := by
  obtain ⟨word, e, hstep⟩ := h
  obtain ⟨q₁, buf₁, pc₁⟩ := x
  obtain ⟨q₂, buf₂, pc₂⟩ := y
  have hmove := threadStep_moves hstep
  simp only at hmove hx ⊢
  cases hmove with
  | body op entry b word hbody => cases ‹BodyResult› <;> simp [BodyResult.pc, Pc.Past]
  | _ => simp_all [Pc.Past]

theorem aloneInv_step (hx : AloneInv q buf op (q.bound op.side).tail x) (h : AloneStep v x y) :
    AloneInv q buf op (q.bound op.side).tail y := by
  rcases hx with ⟨hq, hbuf, ⟨a, ha, hcopy, hroom⟩ | ⟨⟨out, hout⟩, -⟩⟩ | ⟨hroom, hpast⟩
  · obtain ⟨word, e, hstep⟩ := h
    have hmove := threadStep_moves hstep
    obtain ⟨q₁, buf₁, pc₁⟩ := x
    obtain ⟨q₂, buf₂, pc₂⟩ := y
    simp only at hq hbuf ha
    subst hq hbuf ha
    simp only at hmove
    have hkeep : ∀ a' : Acquire, a'.Copies (q₁.bound op.side).tail →
        ((∃ ot, a' = .cas ot) → entries op.side q₁ (q₁.bound op.side).tail ≠ 0#32) →
        AloneInv q₁ buf₁ op (q₁.bound op.side).tail (q₁, buf₁, .acquiring op a') :=
      fun a' hc hr => Or.inl ⟨rfl, rfl, Or.inl ⟨a', rfl, hc, hr⟩⟩
    cases hmove with
    | load => exact hkeep _ rfl (fun ⟨_, he⟩ => Acquire.noConfusion he)
    | far _ ot hfar => exact hkeep _ trivial (fun ⟨_, he⟩ => Acquire.noConfusion he)
    | near _ ot hnear => exact hkeep _ hcopy (fun ⟨_, he⟩ => Acquire.noConfusion he)
    | reload => exact hkeep _ rfl (fun ⟨_, he⟩ => Acquire.noConfusion he)
    | full _ ot hzero =>
        have hot : ot = (q₁.bound op.side).tail := hcopy
        rw [hot] at hzero
        exact Or.inl ⟨rfl, rfl, Or.inr ⟨⟨_, rfl⟩, hzero⟩⟩
    | room _ ot hne =>
        have hot : ot = (q₁.bound op.side).tail := hcopy
        rw [hot] at hne
        exact hkeep _ hcopy (fun _ => hne)
    | acquire _ ot htail => exact Or.inr ⟨hroom ⟨ot, rfl⟩, trivial⟩
    | acquireLost _ ot hlost => exact absurd hcopy.symm hlost
  · obtain ⟨word, e, hstep⟩ := h
    rw [hout] at hstep
    simp [threadStep] at hstep
  · exact Or.inr ⟨hroom, past_aloneStep hpast h⟩

theorem aloneInv_run
    (h : Relation.ReflTransGen (AloneStep v) (q, buf, .acquiring op .load) x) :
    AloneInv q buf op (q.bound op.side).tail x := by
  induction h with
  | refl =>
      exact Or.inl ⟨rfl, rfl, Or.inl ⟨.load, rfl, trivial, fun ⟨_, he⟩ => Acquire.noConfusion he⟩⟩
  | tail _ hstep ih => exact aloneInv_step ih hstep

/-- **What a call can return.** -/
theorem returns_ret {ret : ℤ} (h : Returns v q buf op ret) :
    ret = if entries op.side q (q.bound op.side).tail = 0#32 then -1 else 0 := by
  obtain ⟨q', buf', out, hrun⟩ := h
  rcases aloneInv_run hrun with ⟨-, -, ⟨a, ha, -, -⟩ | ⟨⟨out', hout⟩, hzero⟩⟩ | ⟨hroom, hpast⟩
  · cases ha
  · rw [if_pos hzero]
    cases hout
    rfl
  · rw [if_neg hroom]
    exact hpast

/-! ### The call returns -/

theorem exists_word_not_mem {done : Finset (Fin 4)} {n : ℕ} (h : doneᶜ.card = n + 1) :
    ∃ i, i ∉ done ∧ (insert i done)ᶜ.card = n := by
  have hpos : 0 < doneᶜ.card := by omega
  obtain ⟨i, hi⟩ := Finset.card_pos.mp hpos
  have hnot : i ∉ done := Finset.mem_compl.mp hi
  refine ⟨i, hnot, ?_⟩
  have hcard := Finset.card_insert_of_notMem hnot
  have hle := Finset.card_compl_add_card done
  have hle' := Finset.card_compl_add_card (insert i done)
  omega

theorem insert_eq_univ_iff {done : Finset (Fin 4)} {i : Fin 4} {n : ℕ}
    (h : (insert i done)ᶜ.card = n) : insert i done = Finset.univ ↔ n = 0 := by
  rw [← h, Finset.card_eq_zero, Finset.compl_eq_empty_iff]

/-- Four words are copied one after the other in some order; `next` is the effect of one copy. -/
theorem words_run {σ : Type} (state : Finset (Fin 4) → σ → Alone) (last : σ → Alone)
    (next : Fin 4 → σ → σ)
    (hstep : ∀ done i x, i ∉ done → AloneStep v (state done x)
      (if insert i done = Finset.univ then last (next i x) else state (insert i done) (next i x)))
    (n : ℕ) (done : Finset (Fin 4)) (x : σ) (hn : doneᶜ.card = n + 1) :
    ∃ x', Relation.ReflTransGen (AloneStep v) (state done x) (last x') := by
  induction n generalizing done x with
  | zero =>
      obtain ⟨i, hnot, hrest⟩ := exists_word_not_mem hn
      have hlast := hstep done i x hnot
      rw [if_pos ((insert_eq_univ_iff hrest).mpr rfl)] at hlast
      exact ⟨_, .single hlast⟩
  | succ n ih =>
      obtain ⟨i, hnot, hrest⟩ := exists_word_not_mem hn
      have hmore := hstep done i x hnot
      rw [if_neg (mt (insert_eq_univ_iff hrest).mp (Nat.succ_ne_zero n))] at hmore
      obtain ⟨x', hrun⟩ := ih (insert i done) (next i x) hrest
      exact ⟨x', .head hmore hrun⟩

/-- One access of an element function. -/
theorem body_alone {q' : Queue} {buf' : RpcMsgBuffer} {entry : BitVec 32} {b : Body}
    {word : Option (Fin 4)} {r : BodyResult}
    (h : bodyStep op (ringIndex entry) q buf b word = some (q', buf', r)) :
    AloneStep v (q, buf, .body op entry b) (q', buf', r.pc op entry) :=
  Moves.alone (.body op entry b word h)

/-- The access that copies a word: the next one depends on whether it was the last. -/
theorem word_alone {q' : Queue} {buf' : RpcMsgBuffer} {entry : BitVec 32} {b : Body}
    {word : Option (Fin 4)} {r r' : BodyResult} {p : Prop} [Decidable p]
    (h : bodyStep op (ringIndex entry) q buf b word = some (q', buf', if p then r else r')) :
    AloneStep v (q, buf, .body op entry b)
      (if p then (q', buf', r.pc op entry) else (q', buf', r'.pc op entry)) := by
  have hstep := body_alone (v := v) h
  by_cases hp : p
  · rw [if_pos hp] at hstep ⊢
    exact hstep
  · rw [if_neg hp] at hstep ⊢
    exact hstep

theorem card_compl_empty : (∅ : Finset (Fin 4))ᶜ.card = 3 + 1 := by
  decide

/-- The words of an event are copied to its message, in some order. -/
theorem copyTo_run (msg : RpcMsg) (entry : BitVec 32) (buf : RpcMsgBuffer) :
    ∃ buf', Relation.ReflTransGen (AloneStep v)
      (q, buf, .body (.eventTx msg) entry (.copyTo ∅))
      (q, buf', .body (.eventTx msg) entry (.ringWrite (ringIndex entry))) := by
  refine words_run (fun done buf => (q, buf, .body (.eventTx msg) entry (.copyTo done)))
    (fun buf => (q, buf, .body (.eventTx msg) entry (.ringWrite (ringIndex entry))))
    (fun i buf => Function.update buf (ringIndex entry)
      (Function.update (buf (ringIndex entry)) i (msg i)))
    (fun done i buf hnot => ?_) 3 ∅ buf card_compl_empty
  have hbody : bodyStep (.eventTx msg) (ringIndex entry) q buf (.copyTo done) (some i)
      = some (q, Function.update buf (ringIndex entry)
          (Function.update (buf (ringIndex entry)) i (msg i)),
        if insert i done = Finset.univ then .more (.ringWrite (ringIndex entry))
        else .more (.copyTo (insert i done))) := by
    simp only [bodyStep, if_neg hnot, apply_ite BodyResult.more]
  exact word_alone hbody

/-- The words of an event are copied from its message, in some order. -/
theorem copyFrom_run (buf : RpcMsgBuffer) (id : Fin rpcmsgBufferSize) (entry : BitVec 32)
    (data : RpcMsg) :
    ∃ data', Relation.ReflTransGen (AloneStep v)
      (q, buf, .body .eventRx entry (.copyFrom id ∅ data))
      (q, buf, .committing .eventRx (.copy data') .load) := by
  refine words_run (fun done data => (q, buf, .body .eventRx entry (.copyFrom id done data)))
    (fun data => (q, buf, .committing .eventRx (.copy data) .load))
    (fun i data => Function.update data i (buf id i))
    (fun done i data hnot => ?_) 3 ∅ data card_compl_empty
  have hbody : bodyStep .eventRx (ringIndex entry) q buf (.copyFrom id done data) (some i)
      = some (q, buf,
        if insert i done = Finset.univ then .finished (.copy (Function.update data i (buf id i)))
        else .more (.copyFrom id (insert i done) (Function.update data i (buf id i)))) := by
    simp only [bodyStep, if_neg hnot]
  exact word_alone hbody

/-- An element function ends, and leaves the markers. -/
theorem body_run (buf : RpcMsgBuffer) (hring : RingHoldsIds q) (op : Op) (entry : BitVec 32) :
    ∃ q' buf' out, Relation.ReflTransGen (AloneStep v) (q, buf, .body op entry op.body)
      (q', buf', .committing op out .load) ∧ ∀ s, q'.bound s = q.bound s := by
  obtain ⟨id, hid⟩ := hring (ringIndex entry)
  have hwrite : ∀ (op : Op) (buf : RpcMsgBuffer) (msg : Fin rpcmsgBufferSize),
      AloneStep v (q, buf, .body op entry (.ringWrite msg))
        ({ q with ring := Function.update q.ring (ringIndex entry) (rpcmsgMsgToId msg) }, buf,
          .committing op .nothing .load) := by
    intro op buf msg
    have hbody : bodyStep op (ringIndex entry) q buf (.ringWrite msg) none
        = some ({ q with ring := Function.update q.ring (ringIndex entry) (rpcmsgMsgToId msg) },
          buf, .finished .nothing) := rfl
    exact body_alone hbody
  cases op with
  | eventTx msg =>
      obtain ⟨buf', hrun⟩ := copyTo_run (v := v) (q := q) msg entry buf
      refine ⟨_, buf', .nothing, hrun.tail (hwrite _ buf' _), ?_⟩
      exact fun s => Queue.bound_ring_update q _ s
  | eventRx =>
      have hread : bodyStep .eventRx (ringIndex entry) q buf .ringRead none
          = some (q, buf, .more (.copyFrom id ∅ fun _ => 0#64)) := by
        simp only [bodyStep, hid, rpcmsgIdToMsg_msgToId]
      obtain ⟨data, hrun⟩ := copyFrom_run (v := v) (q := q) buf id entry fun _ => 0#64
      exact ⟨q, buf, .copy data, .head (body_alone hread) hrun, fun _ => rfl⟩
  | rpcEnqueue msg =>
      refine ⟨_, buf, .nothing, .single (hwrite _ buf msg), ?_⟩
      exact fun s => Queue.bound_ring_update q _ s
  | rpcDequeue =>
      have hread : bodyStep .rpcDequeue (ringIndex entry) q buf .ringRead none
          = some (q, buf, .finished (.pointer id)) := by
        simp only [bodyStep, hid, rpcmsgIdToMsg_msgToId]
      exact ⟨q, buf, .pointer id, .single (body_alone hread), fun _ => rfl⟩

/-- The call does return, unless the tail is too far ahead. -/
theorem returns_of_near (hnear : ¬ TooFar (q.bound op.side) (q.bound op.side).tail)
    (hring : RingHoldsIds q) :
    Returns v q buf op
      (if entries op.side q (q.bound op.side).tail = 0#32 then -1 else 0) := by
  have hload : AloneStep v (q, buf, .acquiring op .load)
      (q, buf, .acquiring op (.wait (q.bound op.side).tail)) := Moves.alone (.load op)
  have hwait : AloneStep v (q, buf, .acquiring op (.wait (q.bound op.side).tail))
      (q, buf, .acquiring op (.check (q.bound op.side).tail)) := Moves.alone (.near op _ hnear)
  have hchecks := (Relation.ReflTransGen.single hload).tail hwait
  by_cases hzero : entries op.side q (q.bound op.side).tail = 0#32
  · rw [if_pos hzero]
    exact ⟨q, buf, .nothing, hchecks.tail (Moves.alone (.full op _ hzero))⟩
  · rw [if_neg hzero]
    have hroom := hchecks.tail (Moves.alone (.room op _ hzero))
    have hacquired := hroom.tail (Moves.alone (.acquire op _ rfl))
    have hring' : RingHoldsIds (q.setBound
        { q.bound op.side with tail := (q.bound op.side).tail.next } op.side) := by
      intro i
      rw [Queue.setBound_ring]
      exact hring i
    obtain ⟨q', buf', out, hbody, hbound⟩ := body_run (v := v) buf hring' op
      (q.bound op.side).tail.pos
    have hread := (hacquired.trans hbody).tail (Moves.alone (.loadHead op out))
    have hsampled := hread.tail (Moves.alone (.sampleTail op out _))
    exact ⟨_, _, _, hsampled.tail (Moves.alone (.commit op out _ _ rfl))⟩

theorem returns_iff {ret : ℤ} (hnear : ¬ TooFar (q.bound op.side) (q.bound op.side).tail)
    (hring : RingHoldsIds q) :
    Returns v q buf op ret ↔
      ret = if entries op.side q (q.bound op.side).tail = 0#32 then -1 else 0 := by
  constructor
  · exact returns_ret
  · intro h
    rw [h]
    exact returns_of_near hnear hring

end Alone

/-! ### Reachable states -/

section Reachable

variable {τ : Type} [Fintype τ] {w : World τ}

theorem ofNat_add_sub_eq_zero_iff {a b n : ℕ} (hle : a ≤ b + n) (hlt : b + n - a < 2 ^ 32) :
    BitVec.ofNat 32 n + BitVec.ofNat 32 b - BitVec.ofNat 32 a = 0#32 ↔ a = b + n := by
  have hsub := wrap_sub_toNat (w := 32) hle hlt
  rw [← BitVec.ofNat_add, Nat.add_comm n b]
  constructor
  · intro h
    rw [h] at hsub
    have hzero : (0#32).toNat = 0 := rfl
    omega
  · intro h
    apply BitVec.eq_of_toNat_eq
    rw [hsub, h, Nat.sub_self]
    rfl

theorem Inv.full_iff (h : Inv w) :
    rpcmsgQueueFull w.sys.queue = true ↔
      w.hist.acquired .prod = w.hist.acquired .cons + rpcmsgBufferSize := by
  obtain ⟨h1, h2, h3, h4⟩ := h.positions
  have hsize : rpcmsgBufferSize = 32 := rfl
  rw [rpcmsgQueueFull, decide_eq_true_eq, h.cons_tail_pos, h.prod_tail_pos]
  exact ofNat_add_sub_eq_zero_iff (by omega) (by omega)

theorem Inv.empty_iff (h : Inv w) :
    rpcmsgQueueEmpty w.sys.queue = true ↔ w.hist.published .prod = w.hist.published .cons := by
  obtain ⟨h1, h2, h3, h4⟩ := h.positions
  have hsize : rpcmsgBufferSize = 32 := rfl
  rw [rpcmsgQueueEmpty, decide_eq_true_eq, h.cons_head_pos, h.prod_head_pos]
  constructor
  · intro he
    exact (wrap_inj (by omega) (by omega) he.symm).symm
  · intro he
    rw [he]

/-- An enqueue finds no entry when the producers are a buffer ahead of what consumers published. -/
theorem Inv.entries_prod_iff (h : Inv w) :
    entries .prod w.sys.queue w.sys.queue.prod.tail = 0#32 ↔
      w.hist.acquired .prod = w.hist.published .cons + rpcmsgBufferSize := by
  obtain ⟨h1, h2, h3, h4⟩ := h.positions
  have hsize : rpcmsgBufferSize = 32 := rfl
  rw [entries, h.cons_head_pos, h.prod_tail_pos]
  exact ofNat_add_sub_eq_zero_iff h4 (by omega)

/-- A dequeue finds no entry when consumers acquired all that producers published. -/
theorem Inv.entries_cons_iff (h : Inv w) :
    entries .cons w.sys.queue w.sys.queue.cons.tail = 0#32 ↔
      w.hist.published .prod = w.hist.acquired .cons := by
  obtain ⟨h1, h2, h3, h4⟩ := h.positions
  have hsize : rpcmsgBufferSize = 32 := rfl
  have hiff := ofNat_add_sub_eq_zero_iff (n := 0) (a := w.hist.acquired .cons)
    (b := w.hist.published .prod) (by omega) (by omega)
  rw [BitVec.zero_add, Nat.add_zero, eq_comm (a := w.hist.acquired .cons)] at hiff
  rw [entries, h.cons_tail_pos, h.prod_head_pos]
  exact hiff

/-- A full queue: the producers are a buffer ahead of the consumers' tail, so of their head too. -/
theorem Inv.entries_of_full (h : Inv w) (hfull : rpcmsgQueueFull w.sys.queue = true) :
    entries .prod w.sys.queue w.sys.queue.prod.tail = 0#32 := by
  obtain ⟨h1, h2, h3, h4⟩ := h.positions
  have hacquired := h.full_iff.mp hfull
  apply h.entries_prod_iff.mpr
  omega

/-- An empty queue: no consumer is in flight, and there is nothing to acquire. -/
theorem Inv.entries_of_empty (h : Inv w) (hempty : rpcmsgQueueEmpty w.sys.queue = true) :
    entries .cons w.sys.queue w.sys.queue.cons.tail = 0#32 ∧
      ¬ TooFar w.sys.queue.cons w.sys.queue.cons.tail := by
  obtain ⟨h1, h2, h3, h4⟩ := h.positions
  have hpublished := h.empty_iff.mp hempty
  have hacquired : w.hist.acquired .cons = w.hist.published .cons := by omega
  refine ⟨h.entries_cons_iff.mpr (by omega), ?_⟩
  rw [TooFar, h.cons_tail_pos, h.cons_head_pos, hacquired, BitVec.sub_self]
  exact Nat.not_lt_zero _

/-- With nobody between acquire and commit the tail of a side is near its head. -/
theorem Inv.near_of_rest (h : Inv w) {s : Side} (hrest : ∀ t, ¬ (w.sys.pc t).InFlight s) :
    ¬ TooFar (w.sys.queue.bound s) (w.sys.queue.bound s).tail := by
  rw [TooFar, (h.head_eq_tail hrest).1, BitVec.sub_self]
  exact Nat.not_lt_zero _

/-- With nobody between acquire and commit the predicates are what the operations test. -/
theorem Inv.predicates_of_rest (h : Inv w) (hrest : ∀ t s, ¬ (w.sys.pc t).InFlight s) :
    (rpcmsgQueueFull w.sys.queue = true ↔
        entries .prod w.sys.queue w.sys.queue.prod.tail = 0#32) ∧
      (rpcmsgQueueEmpty w.sys.queue = true ↔
        entries .cons w.sys.queue w.sys.queue.cons.tail = 0#32) := by
  have hcons : w.sys.queue.cons.head = w.sys.queue.cons.tail :=
    (h.head_eq_tail fun t => hrest t .cons).1
  constructor
  · rw [rpcmsgQueueFull, decide_eq_true_eq, entries, hcons]
  · have hpublished := (h.settled_of_idle fun t => hrest t .cons).2
    rw [h.entries_cons_iff, h.empty_iff, hpublished]

/-- With nobody between acquire and commit the queue is a list of ids. -/
theorem Inv.represents_of_rest (h : Inv w) (hrest : ∀ t s, ¬ (w.sys.pc t).InFlight s) :
    ∃ xs, Represents w.sys.queue (w.hist.acquired .cons) xs := by
  obtain ⟨h1, h2, h3, h4⟩ := h.positions
  have hmarker : ∀ s, (w.sys.queue.bound s).head = wrapped (w.hist.acquired s) := by
    intro s
    rw [(h.head_eq_tail fun t => hrest t s).1, h.tail_eq]
  have hcons := (h.settled_of_idle fun t => hrest t .cons).2
  refine ⟨(List.range (w.hist.acquired .prod - w.hist.acquired .cons)).map fun i =>
    (rpcmsgIdToMsg (w.sys.queue.ring (slotOf (w.hist.acquired .cons + i)))).getD 0, ?_⟩
  refine { length_le := ?_, prod := ?_, cons := ?_, ring := ?_ }
  · rw [List.length_map, List.length_range]
    omega
  · rw [List.length_map, List.length_range, Nat.add_sub_cancel' (le_trans h2 h3),
      ← h.tail_eq .prod]
    have hhead := (hmarker .prod).trans (h.tail_eq .prod).symm
    exact congrArg (Bound.mk w.sys.queue.prod.tail) hhead
  · rw [← h.tail_eq .cons]
    have hhead := (hmarker .cons).trans (h.tail_eq .cons).symm
    exact congrArg (Bound.mk w.sys.queue.cons.tail) hhead
  · intro i hi
    obtain ⟨id, hid⟩ := h.ring (slotOf (w.hist.acquired .cons + i))
    rw [List.getElem_map, List.getElem_range, hid, rpcmsgIdToMsg_msgToId]
    rfl

/-- **What the predicates say of the next call.**  In every reachable state an enqueue alone on a
full queue does not succeed, and a dequeue alone on an empty one returns -1.  With no operation in
progress the call returns, -1 exactly if the predicate holds and 0 otherwise. -/
theorem queue_predicates [DecidableEq τ] {variant : τ → CasVariant}
    (h : (worldLts variant).Reachable w) (v : CasVariant) (buf : RpcMsgBuffer) (op : Op) :
    (op.side = .prod → rpcmsgQueueFull w.sys.queue = true →
        ∀ ret, Returns v w.sys.queue buf op ret → ret ≠ 0) ∧
      (op.side = .cons → rpcmsgQueueEmpty w.sys.queue = true →
        ∀ ret, Returns v w.sys.queue buf op ret ↔ ret = -1) ∧
      ((∀ t s, ¬ (w.sys.pc t).InFlight s) → ∀ ret,
        (op.side = .prod → (Returns v w.sys.queue buf op ret ↔
          ret = if rpcmsgQueueFull w.sys.queue then -1 else 0)) ∧
        (op.side = .cons → (Returns v w.sys.queue buf op ret ↔
          ret = if rpcmsgQueueEmpty w.sys.queue then -1 else 0))) := by
  have hi := inv_of_reachable h
  refine ⟨?_, ?_, ?_⟩
  · intro hside hfull ret hret
    have hzero : entries op.side w.sys.queue (w.sys.queue.bound op.side).tail = 0#32 := by
      rw [hside]
      exact hi.entries_of_full hfull
    rw [returns_ret hret, if_pos hzero]
    decide
  · intro hside hempty ret
    obtain ⟨hzero, hnear⟩ := hi.entries_of_empty hempty
    have hzero' : entries op.side w.sys.queue (w.sys.queue.bound op.side).tail = 0#32 := by
      rw [hside]
      exact hzero
    have hnear' : ¬ TooFar (w.sys.queue.bound op.side) (w.sys.queue.bound op.side).tail := by
      rw [hside]
      exact hnear
    rw [returns_iff hnear' hi.ring, if_pos hzero']
  · intro hrest ret
    obtain ⟨hfull, hempty⟩ := hi.predicates_of_rest hrest
    have hnear := hi.near_of_rest fun t => hrest t op.side
    constructor
    · intro hside
      have htail : entries op.side w.sys.queue (w.sys.queue.bound op.side).tail
          = entries .prod w.sys.queue w.sys.queue.prod.tail := by
        rw [hside]
        rfl
      rw [returns_iff hnear hi.ring, htail]
      simp only [hfull]
    · intro hside
      have htail : entries op.side w.sys.queue (w.sys.queue.bound op.side).tail
          = entries .cons w.sys.queue w.sys.queue.cons.tail := by
        rw [hside]
        rfl
      rw [returns_iff hnear hi.ring, htail]
      simp only [hempty]

end Reachable

/-- A call that nobody interrupts, and its return. -/
def wholeCall (op : Op) : List (Unit × Act) :=
  ((), .call op) :: List.replicate rpcAccesses ((), .step none) ++ [((), .leave)]

/-- A thread enqueued every message of the table. -/
def filled : World Unit :=
  World.initial.play (fun _ => .user)
    ((List.finRange rpcmsgBufferSize).flatMap fun id => wholeCall (.rpcEnqueue id))

/-- Then it dequeued them all, and has acquired an entry of the next lap that it did not commit. -/
def nextLap (id : Fin rpcmsgBufferSize) : World Unit :=
  filled.play (fun _ => .user)
    ((List.replicate rpcmsgBufferSize (wholeCall .rpcDequeue)).flatten ++
      ((), .call (.rpcEnqueue id)) :: List.replicate 4 ((), .step none))

theorem reachable_filled : (worldLts fun _ => .user).Reachable filled :=
  World.reachable_play (.init rfl) _

theorem reachable_nextLap (id : Fin rpcmsgBufferSize) :
    (worldLts fun _ => .user).Reachable (nextLap id) :=
  World.reachable_play reachable_filled _

/-- A queue of 32 messages is full, and the next enqueue returns -1; a queue whose only message is
still being enqueued is empty, and a dequeue returns -1; in a queue that was never used an enqueue
succeeds. -/
theorem queue_predicates_laps :
    (∀ ret, Returns .kernel filled.sys.queue filled.sys.buffer (.rpcEnqueue 0) ret ↔ ret = -1) ∧
      (∀ ret, Returns .user filled.sys.queue filled.sys.buffer .rpcDequeue ret ↔ ret = 0) ∧
      (∀ ret, Returns .user (nextLap 0).sys.queue (nextLap 0).sys.buffer .rpcDequeue ret ↔
        ret = -1) ∧
      Returns .kernel rpcmsgQueueInit rpcmsgBufferInit (.rpcEnqueue 0) 0 := by
  have hidle : filled.sys.pc () = .idle := by decide +kernel
  have hrest : ∀ (t : Unit) (s : Side), ¬ (filled.sys.pc t).InFlight s := by
    intro t s
    rw [hidle]
    exact id
  have hfull : rpcmsgQueueFull filled.sys.queue = true := by decide +kernel
  have hsome : rpcmsgQueueEmpty filled.sys.queue = false := by decide +kernel
  have hlap : rpcmsgQueueEmpty (nextLap 0).sys.queue = true := by decide +kernel
  have hinit : (worldLts fun _ : Unit => .user).Reachable World.initial := .init rfl
  refine ⟨fun ret => ?_, fun ret => ?_, ?_, ?_⟩
  · have h := ((queue_predicates reachable_filled .kernel filled.sys.buffer
      (.rpcEnqueue 0)).2.2 hrest ret).1 rfl
    rwa [hfull] at h
  · have h := ((queue_predicates reachable_filled .user filled.sys.buffer
      .rpcDequeue).2.2 hrest ret).2 rfl
    rwa [hsome] at h
  · exact (queue_predicates (reachable_nextLap 0) .user (nextLap 0).sys.buffer .rpcDequeue).2.1
      rfl hlap
  · exact ((queue_predicates hinit .kernel rpcmsgBufferInit (.rpcEnqueue 0)).2.2
      (fun _ _ h => h) 0).1 rfl |>.mpr rfl

end TiiSel4Vm.RpcQueue
