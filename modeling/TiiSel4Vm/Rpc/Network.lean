import TiiSel4Vm.Queue.PointerQueue
import TiiSel4Vm.Rpc.Lend

/-!
# A message table with any number of queues and threads

The threads of all parties share one table of messages and its queues.  A thread uses only messages
it was lent or received: it writes their words, reclaims one, or enqueues one by giving it up.
Every access to a queue is a step of its own, and so are the scan and the `set_bit` of a lend, so
all threads are in the middle of queue operations and of lends at once.

* `netLts` — the runs whose copies of markers are fresh and whose `set_bit`s find their bit clear;
* `netLts_run_of_lender` — where one thread lends, the second condition holds of itself;
* `Net.world` — a queue of the network with the threads that are in a call on it;
* `queueMoves_step` — a step of the network moves at most one queue, by a step of that queue;
* `queues_of_reachable` — so each queue keeps the invariants of a queue of pointers.
-/

namespace TiiSel4Vm.RpcQueue

open TiiSel4Vm.Transition

variable {κ τ : Type}

/-! ### The network -/

/-- The shared memory, the threads, and a record that no operation reads. -/
structure Net (κ τ : Type) where
  /-- `rpcmsg_buffer_state_t` -/
  state : Bitmap
  buffer : RpcMsgBuffer
  queue : κ → Queue
  /-- the queue operation a thread is in -/
  call : τ → Option (κ × Pc)
  /-- where a thread is in `rpcmsg_lend_buffer` -/
  lending : τ → LendPc
  /-- the messages a thread has for itself -/
  hand : τ → Finset (Fin rpcmsgBufferSize)
  /-- the history of each queue -/
  hist : κ → Hist τ
  /-- the words of a message when it was enqueued last -/
  left : Fin rpcmsgBufferSize → RpcMsg

/-- After `vso_driver_rpc_init` by the driver. -/
def Net.initial : Net κ τ where
  state := rpcmsgBufferStateInit
  buffer := rpcmsgBufferInit
  queue _ := rpcmsgQueueInit
  call _ := none
  lending _ := .idle
  hand _ := ∅
  hist _ := .initial
  left := rpcmsgBufferInit

inductive NetAct (κ τ : Type) where
  /-- a thread calls `rpcmsg_lend_buffer` and runs its scan; it returns NULL if nothing is free -/
  | scan (t : τ)
  /-- the `set_bit`, after which the lend returns the message -/
  | mark (t : τ)
  /-- a thread calls `rpcmsg_reclaim_buffer` with a message it has -/
  | reclaim (t : τ) (msg : Fin rpcmsgBufferSize)
  /-- a thread writes word `i` of a message it has -/
  | write (t : τ) (msg : Fin rpcmsgBufferSize) (i : Fin 4) (word : Word)
  /-- a thread calls `rpcmsg_enqueue` with a message it has -/
  | enqueue (t : τ) (l : κ) (msg : Fin rpcmsgBufferSize)
  /-- a thread calls `rpcmsg_dequeue` -/
  | dequeue (t : τ) (l : κ)
  /-- the next access of the operation a thread is in -/
  | access (t : τ)
  /-- the operation returns to its caller -/
  | leave (t : τ)
  deriving DecidableEq

/-- What a caller has after the operation: a message that could not be enqueued is still its own. -/
def handed (hand : Finset (Fin rpcmsgBufferSize)) : Op → ℤ → Out → Finset (Fin rpcmsgBufferSize)
  | .rpcEnqueue msg, ret, _ => if ret = 0 then hand else insert msg hand
  | .rpcDequeue, ret, .pointer msg => if ret = 0 then insert msg hand else hand
  | _, _, _ => hand

/-- The thread is in no function of the queues. -/
def Net.Free (n : Net κ τ) (t : τ) : Prop := n.call t = none ∧ n.lending t = .idle

instance [DecidableEq κ] (n : Net κ τ) (t : τ) : Decidable (n.Free t) :=
  inferInstanceAs (Decidable (_ ∧ _))

variable [DecidableEq κ] [DecidableEq τ]

/-- The network after thread `t`, in a call on `l`, made an access. -/
def Net.afterAccess (n : Net κ τ) (l : κ) (t : τ) (q : Queue) (buf : RpcMsgBuffer) (pc : Pc)
    (e : Event) : Net κ τ :=
  { n with
    queue := Function.update n.queue l q
    buffer := buf
    call := Function.update n.call t (some (l, pc))
    hist := Function.update n.hist l ((n.hist l).record t e) }

/-- One step of the network; `variant` is the build of each thread. -/
def netStep (variant : τ → CasVariant) (n : Net κ τ) : NetAct κ τ → Option (Net κ τ)
  | .scan t =>
      if n.Free t then
        match lendScan n.state with
        | none => some n
        | some id => some { n with lending := Function.update n.lending t (.marking id) }
      else none
  | .mark t =>
      match n.lending t with
      | .idle => none
      | .marking id =>
          some { n with
            state := setBit id n.state
            lending := Function.update n.lending t .idle
            hand := Function.update n.hand t (insert id (n.hand t)) }
  | .reclaim t msg =>
      if n.Free t ∧ msg ∈ n.hand t then
        some { n with
          state := rpcmsgReclaimBuffer n.state msg
          hand := Function.update n.hand t ((n.hand t).erase msg) }
      else none
  | .write t msg i word =>
      if n.Free t ∧ msg ∈ n.hand t then
        some { n with
          buffer := Function.update n.buffer msg (Function.update (n.buffer msg) i word) }
      else none
  | .enqueue t l msg =>
      if n.Free t ∧ msg ∈ n.hand t then
        some { n with
          call := Function.update n.call t (some (l, .acquiring (.rpcEnqueue msg) .load))
          hand := Function.update n.hand t ((n.hand t).erase msg)
          left := Function.update n.left msg (n.buffer msg) }
      else none
  | .dequeue t l =>
      if n.Free t then
        some { n with call := Function.update n.call t (some (l, .acquiring .rpcDequeue .load)) }
      else none
  | .access t =>
      match n.call t with
      | some (l, pc) =>
          (threadStep (variant t) (n.queue l) n.buffer pc (.step none)).map
            fun (q, buf, pc', e) => n.afterAccess l t q buf pc' e
      | none => none
  | .leave t =>
      match n.call t with
      | some (_, .returned op ret out) =>
          some { n with
            call := Function.update n.call t none
            hand := Function.update n.hand t (handed (n.hand t) op ret out) }
      | _ => none

/-- Everything a step can do. -/
inductive NetMoves (variant : τ → CasVariant) (n : Net κ τ) : NetAct κ τ → Net κ τ → Prop
  | noneFree {t : τ} (hfree : n.Free t) (hscan : lendScan n.state = none) :
      NetMoves variant n (.scan t) n
  | found {t : τ} {id : Fin rpcmsgBufferSize} (hfree : n.Free t)
      (hscan : lendScan n.state = some id) :
      NetMoves variant n (.scan t)
        { n with lending := Function.update n.lending t (.marking id) }
  | mark {t : τ} {id : Fin rpcmsgBufferSize} (hlending : n.lending t = .marking id) :
      NetMoves variant n (.mark t)
        { n with
          state := setBit id n.state
          lending := Function.update n.lending t .idle
          hand := Function.update n.hand t (insert id (n.hand t)) }
  | reclaim {t : τ} {msg : Fin rpcmsgBufferSize} (hfree : n.Free t) (hmem : msg ∈ n.hand t) :
      NetMoves variant n (.reclaim t msg)
        { n with
          state := rpcmsgReclaimBuffer n.state msg
          hand := Function.update n.hand t ((n.hand t).erase msg) }
  | write {t : τ} {msg : Fin rpcmsgBufferSize} {i : Fin 4} {word : Word} (hfree : n.Free t)
      (hmem : msg ∈ n.hand t) :
      NetMoves variant n (.write t msg i word)
        { n with
          buffer := Function.update n.buffer msg (Function.update (n.buffer msg) i word) }
  | enqueue {t : τ} {l : κ} {msg : Fin rpcmsgBufferSize} (hfree : n.Free t)
      (hmem : msg ∈ n.hand t) :
      NetMoves variant n (.enqueue t l msg)
        { n with
          call := Function.update n.call t (some (l, .acquiring (.rpcEnqueue msg) .load))
          hand := Function.update n.hand t ((n.hand t).erase msg)
          left := Function.update n.left msg (n.buffer msg) }
  | dequeue {t : τ} {l : κ} (hfree : n.Free t) :
      NetMoves variant n (.dequeue t l)
        { n with call := Function.update n.call t (some (l, .acquiring .rpcDequeue .load)) }
  | access {t : τ} {l : κ} {pc pc' : Pc} {q : Queue} {buf : RpcMsgBuffer} {e : Event}
      (hcall : n.call t = some (l, pc))
      (hthread : threadStep (variant t) (n.queue l) n.buffer pc (.step none)
        = some (q, buf, pc', e)) :
      NetMoves variant n (.access t) (n.afterAccess l t q buf pc' e)
  | leave {t : τ} {l : κ} {op : Op} {ret : ℤ} {out : Out}
      (hcall : n.call t = some (l, .returned op ret out)) :
      NetMoves variant n (.leave t)
        { n with
          call := Function.update n.call t none
          hand := Function.update n.hand t (handed (n.hand t) op ret out) }

/-- **Step inversion.** -/
theorem netStep_moves {variant : τ → CasVariant} {n n' : Net κ τ} {act : NetAct κ τ}
    (h : netStep variant n act = some n') : NetMoves variant n act n' := by
  cases act with
  | scan t =>
      simp only [netStep] at h
      split at h
      · rename_i hfree
        split at h
        · rename_i hscan
          cases h
          exact .noneFree hfree hscan
        · rename_i id hscan
          cases h
          exact .found hfree hscan
      · cases h
  | mark t =>
      simp only [netStep] at h
      split at h
      · cases h
      · rename_i id hlending
        cases h
        exact .mark hlending
  | reclaim t msg =>
      simp only [netStep] at h
      split at h
      · rename_i hcond
        cases h
        exact .reclaim hcond.1 hcond.2
      · cases h
  | write t msg i word =>
      simp only [netStep] at h
      split at h
      · rename_i hcond
        cases h
        exact .write hcond.1 hcond.2
      · cases h
  | enqueue t l msg =>
      simp only [netStep] at h
      split at h
      · rename_i hcond
        cases h
        exact .enqueue hcond.1 hcond.2
      · cases h
  | dequeue t l =>
      simp only [netStep] at h
      split at h
      · rename_i hfree
        cases h
        exact .dequeue hfree
      · cases h
  | access t =>
      simp only [netStep] at h
      split at h
      · rename_i l pc hcall
        obtain ⟨⟨q, buf, pc', e⟩, hthread, rfl⟩ := Option.map_eq_some_iff.mp h
        exact .access hcall hthread
      · cases h
  | leave t =>
      simp only [netStep] at h
      split at h
      · rename_i l op ret out hcall
        cases h
        exact .leave hcall
      · cases h

omit [DecidableEq τ] in
/-- Where thread `t` is in an operation on queue `l`. -/
def Net.pc (n : Net κ τ) (l : κ) (t : τ) : Pc :=
  match n.call t with
  | some (r, pc) => if r = l then pc else .idle
  | none => .idle

/-- Queue `l` with the threads in a call on it. -/
def Net.world (n : Net κ τ) (l : κ) : World τ := ⟨⟨n.queue l, n.buffer, n.pc l⟩, n.hist l⟩

/-- The access uses a fresh copy of a marker. -/
def NetFresh (n : Net κ τ) : NetAct κ τ → Prop
  | .access t =>
      match n.call t with
      | some (l, _) => Fresh (n.world l) t
      | none => True
  | _ => True

instance (n : Net κ τ) (act : NetAct κ τ) : Decidable (NetFresh n act) := by
  unfold NetFresh
  split
  · split <;> infer_instance
  · infer_instance

omit [DecidableEq κ] [DecidableEq τ] in
/-- If the next step is a `set_bit`, its bit is still clear. -/
def NetClear (n : Net κ τ) : NetAct κ τ → Prop
  | .mark t => ∀ id, n.lending t = .marking id → ¬ Lent n.state id
  | _ => True

instance (n : Net κ τ) (act : NetAct κ τ) : Decidable (NetClear n act) := by
  unfold NetClear
  split <;> infer_instance

/-- The network under any interleaving. -/
def netLts (variant : τ → CasVariant) : Lts (Net κ τ) (NetAct κ τ) :=
  (Lts.ofFun (fun n => n = .initial) (netStep variant)).restrict fun n act =>
    NetFresh n act ∧ NetClear n act

/-! ### One lender -/

/-- If the act starts a lend, thread `lender` does. -/
def NetAct.ByLender (lender : τ) : NetAct κ τ → Prop
  | .scan t => t = lender
  | _ => True

/-- The network when thread `lender` alone lends, and nothing is said of its `set_bit`s. -/
def lenderLts (variant : τ → CasVariant) (lender : τ) : Lts (Net κ τ) (NetAct κ τ) :=
  (Lts.ofFun (fun n => n = .initial) (netStep variant)).restrict fun n act =>
    NetFresh n act ∧ act.ByLender lender

/-- What the one lender found stays clear until it sets it. -/
structure LenderInv (lender : τ) (n : Net κ τ) : Prop where
  covers : CoversBuffers n.state
  found : ∀ t id, n.lending t = .marking id → t = lender ∧ ¬ Lent n.state id

theorem LenderInv.step {variant : τ → CasVariant} {lender : τ} {n n' : Net κ τ}
    {act : NetAct κ τ} (hi : LenderInv lender n) (h : (lenderLts variant lender).step n act n') :
    LenderInv lender n' := by
  obtain ⟨⟨-, hby⟩, hstep⟩ := h
  have hmoves : NetMoves variant n act n' := netStep_moves hstep
  cases hmoves with
  | @found t id hfree hscan =>
      refine ⟨hi.covers, fun u k hu => ?_⟩
      by_cases hut : u = t
      · subst hut
        simp only [Function.update_self] at hu
        cases hu
        exact ⟨hby, not_lent_of_lendScan hi.covers hscan⟩
      · simp only [Function.update_of_ne hut] at hu
        exact hi.found u k hu
  | @mark t id hlending =>
      refine ⟨hi.covers.setBit id, fun u k hu => ?_⟩
      by_cases hut : u = t
      · subst hut
        simp only [Function.update_self] at hu
        cases hu
      · simp only [Function.update_of_ne hut] at hu
        have hlender := (hi.found t id hlending).1
        exact absurd ((hi.found u k hu).1.trans hlender.symm) hut
  | @reclaim t msg hfree hmem =>
      refine ⟨hi.covers.reclaim msg, fun u k hu => ⟨(hi.found u k hu).1, fun hlent => ?_⟩⟩
      exact (hi.found u k hu).2 ((lent_reclaim hi.covers).mp hlent).1
  | _ => exact ⟨hi.covers, hi.found⟩

/-- **One lender always finds its bit clear**: its runs are runs of the network. -/
theorem netLts_run_of_lender {variant : τ → CasVariant} {lender : τ} {n : Net κ τ}
    {acts : List (NetAct κ τ)} (h : (lenderLts variant lender).Run .initial acts n) :
    (netLts variant).Run .initial acts n := by
  have hinit : LenderInv lender (Net.initial : Net κ τ) :=
    ⟨coversBuffers_init, fun _ _ hpc => by cases hpc⟩
  have hmatch : ∀ (n m : Net κ τ) act n', (m = n ∧ LenderInv lender n) →
      (lenderLts variant lender).step n act n' →
      ∃ m', (netLts variant).step m act m' ∧ m' = n' ∧ LenderInv lender n' := by
    rintro n _ act n' ⟨rfl, hi⟩ hs
    refine ⟨n', ⟨⟨hs.1.1, ?_⟩, hs.2⟩, rfl, hi.step hs⟩
    cases act with
    | mark t => exact fun id hid => (hi.found t id hid).2
    | _ => trivial
  obtain ⟨_, hrun, rfl, -⟩ := h.simulate hmatch ⟨rfl, hinit⟩
  exact hrun

/-! ### Every queue of the network is a queue of pointers -/

/-- The two differ at most in the words of the messages. -/
structure Agree (w w' : World τ) : Prop where
  queue : w'.sys.queue = w.sys.queue
  pc : w'.sys.pc = w.sys.pc
  hist : w'.hist = w.hist

omit [DecidableEq τ] in
theorem Agree.inv [Fintype τ] {w w' : World τ} (h : Agree w w') (hi : Inv w) : Inv w' := by
  obtain ⟨⟨q, buf, pc⟩, hist⟩ := w
  obtain ⟨⟨q', buf', pc'⟩, hist'⟩ := w'
  obtain ⟨rfl, rfl, rfl⟩ := h
  exact { hi with }

omit [DecidableEq τ] in
theorem Agree.pointerInv {w w' : World τ} (h : Agree w w') (hp : PointerInv w) :
    PointerInv w' := by
  obtain ⟨⟨q, buf, pc⟩, hist⟩ := w
  obtain ⟨⟨q', buf', pc'⟩, hist'⟩ := w'
  obtain ⟨rfl, rfl, rfl⟩ := h
  exact { hp with places := { hp.places with } }

section Projection

variable {n : Net κ τ} {t : τ} {l r : κ}

omit [DecidableEq τ] in
theorem Net.pc_of_call {pc : Pc} (h : n.call t = some (l, pc)) : n.pc l t = pc := by
  simp [Net.pc, h]

omit [DecidableEq τ] in
theorem Net.pc_of_idle (h : n.call t = none) : n.pc l t = .idle := by
  simp [Net.pc, h]

/-- A call on `l` moves. -/
theorem pc_update {pc' : Pc} :
    ({ n with call := Function.update n.call t (some (l, pc')) } : Net κ τ).pc l
      = Function.update (n.pc l) t pc' := by
  funext u
  by_cases hu : u = t
  · subst hu
    simp [Net.pc]
  · simp [Net.pc, Function.update_of_ne hu]

/-- To the other queues a thread in a call on `l` is idle. -/
theorem pc_update_ne {pc' : Pc} (hr : r ≠ l) (hcall : n.pc r t = .idle) :
    ({ n with call := Function.update n.call t (some (l, pc')) } : Net κ τ).pc r = n.pc r := by
  funext u
  by_cases hu : u = t
  · subst hu
    rw [hcall]
    simp [Net.pc, Ne.symm hr]
  · simp [Net.pc, Function.update_of_ne hu]

theorem pc_leave : ({ n with call := Function.update n.call t none } : Net κ τ).pc l
    = Function.update (n.pc l) t .idle := by
  funext u
  by_cases hu : u = t
  · subst hu
    simp [Net.pc]
  · simp [Net.pc, Function.update_of_ne hu]

omit [DecidableEq τ] in
theorem Net.pc_idle_of_ne {pc : Pc} (h : n.call t = some (l, pc)) (hr : r ≠ l) :
    n.pc r t = .idle := by
  simp [Net.pc, h, Ne.symm hr]

end Projection

section Step

variable {variant : τ → CasVariant} {n n' : Net κ τ} {t : τ} {l : κ}

/-- A queue does not move, or makes one step of its own. -/
def QueueMoves (variant : τ → CasVariant) (n n' : Net κ τ) (l : κ) : Prop :=
  Agree (n.world l) (n'.world l) ∨
    ∃ t a w, (pointerLts variant).step (n.world l) (t, a) w ∧ Agree w (n'.world l)

/-- A thread that is in no call starts one. -/
theorem queueMoves_call (op : Op) (hidle : n.call t = none) (hop : op.IsPointer)
    (hcall : n'.call = Function.update n.call t (some (l, .acquiring op .load)))
    (hq : n'.queue = n.queue) (hh : n'.hist = n.hist) (r : κ) : QueueMoves variant n n' r := by
  have hpc : n'.pc r = ({ n with call := n'.call } : Net κ τ).pc r := rfl
  rw [hcall] at hpc
  by_cases hr : r = l
  · subst hr
    right
    refine ⟨t, .call op, ⟨⟨n.queue r, n.buffer, Function.update (n.pc r) t _⟩, n.hist r⟩,
      ⟨hop, ?_, _, .silent, ?_, rfl⟩, ⟨congrFun hq r, hpc.trans pc_update, congrFun hh r⟩⟩
    · simp [Fresh, Net.world, Net.pc_of_idle hidle]
    · simp only [sysStep, Net.world, Net.pc_of_idle hidle, threadStep, Option.map_some]
  · exact Or.inl ⟨congrFun hq r, hpc.trans (pc_update_ne hr (Net.pc_of_idle hidle)),
      congrFun hh r⟩

/-- **A step of the network moves at most one queue**, by a step of that queue alone. -/
theorem queueMoves_step {act : NetAct κ τ} (h : (netLts variant).step n act n') (r : κ) :
    QueueMoves variant n n' r := by
  obtain ⟨⟨hfresh, -⟩, hstep⟩ := h
  have hmoves : NetMoves variant n act n' := netStep_moves hstep
  cases hmoves with
  | @enqueue t l msg hfree hmem =>
      refine queueMoves_call (l := l) (.rpcEnqueue msg) hfree.1 trivial ?_ ?_ ?_ r <;> rfl
  | @dequeue t l hfree =>
      refine queueMoves_call (l := l) .rpcDequeue hfree.1 trivial ?_ ?_ ?_ r <;> rfl
  | @access t l pc pc' q buf e hcall hthread =>
      simp only [NetFresh, hcall] at hfresh
      by_cases hr : r = l
      · subst hr
        right
        refine ⟨t, .step none,
          ⟨⟨q, buf, Function.update (n.pc r) t pc'⟩, (n.hist r).record t e⟩,
          ⟨trivial, hfresh, _, e, ?_, rfl⟩,
          ⟨Function.update_self .., pc_update, Function.update_self ..⟩⟩
        simp only [sysStep, Net.world, Net.pc_of_call hcall, hthread, Option.map_some]
      · exact Or.inl ⟨Function.update_of_ne hr _ _,
          pc_update_ne hr (Net.pc_idle_of_ne hcall hr), Function.update_of_ne hr _ _⟩
  | @leave t l op ret out hcall =>
      by_cases hr : r = l
      · subst hr
        right
        refine ⟨t, .leave, ⟨⟨n.queue r, n.buffer, Function.update (n.pc r) t .idle⟩, n.hist r⟩,
          ⟨trivial, ?_, _, .silent, ?_, rfl⟩, ⟨rfl, pc_leave, rfl⟩⟩
        · simp [Fresh, Net.world, Net.pc_of_call hcall]
        · simp only [sysStep, Net.world, Net.pc_of_call hcall, threadStep, Option.map_some]
      · refine Or.inl ⟨rfl, ?_, rfl⟩
        refine pc_leave.trans (Function.update_eq_self_iff.mpr ?_)
        exact (Net.pc_idle_of_ne hcall hr).symm
  -- lends, reclaims and writes of words are no accesses to a queue
  | _ => exact Or.inl ⟨rfl, rfl, rfl⟩

variable [Fintype τ]

/-- Every queue of the network keeps its invariants. -/
theorem queues_of_reachable (h : (netLts variant).Reachable n) (l : κ) :
    Inv (n.world l) ∧ PointerInv (n.world l) := by
  refine h.invariant (I := fun n => Inv (n.world l) ∧ PointerInv (n.world l)) (fun n hn => ?_)
    fun n act n' _ hq hs => ?_
  · cases hn
    exact ⟨inv_initial, pointerInv_initial⟩
  · obtain ⟨hi, hp⟩ := hq
    rcases queueMoves_step hs l with hagree | ⟨t, a, w, hstep, hagree⟩
    · exact ⟨hagree.inv hi, hagree.pointerInv hp⟩
    · exact ⟨hagree.inv (hi.step hstep.2), hagree.pointerInv (hp.step hi hstep)⟩

end Step

end TiiSel4Vm.RpcQueue
