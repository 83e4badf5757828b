import Mathlib.Data.Fintype.Sum
import TiiSel4Vm.Queue.EventQueue
import TiiSel4Vm.Queue.Places
import TiiSel4Vm.Vmm.Doorbell
import TiiSel4Vm.Vmm.Isolation

/-!
# The VM starts after its backend

`libsel4vm_io_proxy_init` makes the first call of the notification callback itself, and then waits
in `io_proxy_wait_for_backend` until a message has set `ok_to_run`.  By then the callback is
registered, so the notification thread may be in `rpc_run` as well: two threads take events from one
queue.

* `StartInv` — which events were taken, which are done, who is asleep;
* `start_follows` — the VM starts after a start message, and which events may still be open then;
* `start_not_lost` — when all threads have come to rest, a start message has started the VM.
-/

namespace TiiSel4Vm.Startup

open TiiSel4Vm.Transition TiiSel4Vm.RpcQueue TiiSel4Vm.Devices TiiSel4Vm.Doorbell

/-! ### The threads -/

/-- The two threads that run `_ntfn_callback`. -/
inductive Receiver where
  /-- in `libsel4vm_io_proxy_init` -/
  | boot
  /-- the notification thread -/
  | ntfn
  deriving DecidableEq

instance : Fintype Receiver := ⟨{.boot, .ntfn}, fun r => by cases r <;> decide⟩

/-- The threads on the event queue: senders in the backend, and the receivers. -/
abbrev Party (τ : Type) := τ ⊕ Receiver

/-- The loops of `rpc_run` that hand a message to `rpc_process`. -/
inductive Source where
  | response
  | event
  deriving DecidableEq

/-- Where a receiver is in `_ntfn_callback`. -/
inductive Phase where
  /-- it has returned, or was not called -/
  | idle
  /-- before the callback is registered again -/
  | registering
  /-- in the loop of `rpc_run` over the responses -/
  | responses
  /-- in the loop over the events; `rc` is the variable of `rpc_run` -/
  | draining (rc : ℤ)
  /-- in `rpc_process` with a message of that loop -/
  | processing (l : Source) (msg : RpcMsg)
  /-- in `handle_control`, before the semaphore is posted -/
  | posting (l : Source)
  /-- an assertion failed, or `rpc_run` did -/
  | failed
  deriving DecidableEq

/-- Where `io_proxy_wait_for_backend` is. -/
inductive Waiter where
  /-- before `ok_to_run` is read -/
  | checking
  /-- in `sync_sem_wait` -/
  | waiting
  /-- it has returned -/
  | past
  deriving DecidableEq

/-- One `io_proxy_t`, its event queue and the threads. -/
structure State (τ : Type) where
  events : World (Party τ)
  /-- a doorbell came for which no callback was called -/
  pending : Bool
  /-- the callback is registered -/
  registered : Bool
  phase : Receiver → Phase
  waiter : Waiter
  okToRun : Bool
  /-- the count of the semaphore -/
  backendStarted : ℕ
  /-- the events that `rpc_process` is done with, each with its position; nothing reads it -/
  handled : List (ℕ × RpcMsg)
  /-- the responses that it is done with -/
  responses : List RpcMsg

inductive StartAct (τ : Type) where
  /-- sender `t` calls `device_event_tx` -/
  | deviceEventTx (t : τ) (msg : RpcMsg)
  /-- sender `t` makes its next access -/
  | send (t : τ) (word : Option (Fin 4))
  /-- the enqueue of sender `t` has returned: `vso_doorbell` if it returned 0 -/
  | ring (t : τ)
  /-- the notification thread takes a pending doorbell -/
  | take
  /-- `_ntfn_recv_reg_callback` -/
  | register (r : Receiver)
  /-- `rpcmsg_receive_response` has returned a message -/
  | response (r : Receiver) (msg : RpcMsg)
  /-- it has returned none -/
  | responsesDone (r : Receiver)
  /-- the loop over the events calls `rpcmsg_event_rx` -/
  | eventRx (r : Receiver)
  /-- receiver `r` makes its next access -/
  | receive (r : Receiver) (word : Option (Fin 4))
  /-- `rpcmsg_event_rx` has returned -/
  | handle (r : Receiver)
  /-- `rpc_process` returns `rc`, or an assertion in it fails -/
  | process (r : Receiver) (rc : Option ℤ)
  /-- `ok_to_run = 1` -/
  | store (r : Receiver)
  /-- `sync_sem_post`, after which `rpc_process` returns 0 -/
  | post (r : Receiver)
  /-- `while (!*ok_to_run)` -/
  | check
  /-- `sync_sem_wait` returns -/
  | wait

/-- The message starts the VM. -/
def IsStart (msg : RpcMsg) : Prop := qemuOp (msg mr0) = qemuOpStartVm

instance : DecidablePred IsStart := fun msg =>
  inferInstanceAs (Decidable (qemuOp (msg mr0) = qemuOpStartVm))

/-- Where `rpc_run` goes on when `rpc_process` has returned. -/
def next : Source → Option ℤ → Phase
  | _, none => .failed
  | .response, some rc => if rc = 0 then .responses else .draining rc
  | .event, some rc => if rc = 0 then .draining 0 else .failed

/-- Where it goes on when `rpcmsg_event_rx` has returned: at the end of the loop `rpc_run` returns
`rc`, and an error is fatal. -/
def afterRx (rc ret : ℤ) (out : Out) : Phase :=
  if ret = 0 then
    match out with
    | .copy msg => .processing .event msg
    | _ => .failed
  else if rc = 0 then .idle
  else .failed

section System

variable {τ : Type} [DecidableEq τ]

/-- The receiver is elsewhere now. -/
def State.goto (w : State τ) (r : Receiver) (p : Phase) : State τ :=
  { w with phase := Function.update w.phase r p }

/-- `rpc_process` is done with a message. -/
def State.done (w : State τ) (r : Receiver) : Source → RpcMsg → State τ
  | .response, msg => { w with responses := w.responses ++ [msg] }
  | .event, msg => { w with handled := w.handled ++ [(w.events.hist.place (.inr r), msg)] }

/-- `rpc_process` has set the flag. -/
def State.stored (w : State τ) (r : Receiver) (l : Source) (msg : RpcMsg) : State τ :=
  { w.done r l msg with okToRun := true }.goto r (.posting l)

/-- The semaphore is posted, and `rpc_process` has returned 0. -/
def State.posted (w : State τ) (r : Receiver) (l : Source) : State τ :=
  { w with backendStarted := w.backendStarted + 1 }.goto r (next l (some 0))

/-- A thread makes a step on the event queue. -/
def State.onQueue (variant : Party τ → CasVariant) (w : State τ) (p : Party τ) (act : Act) :
    Option (State τ) :=
  if Fresh w.events p then
    (sysStep variant w.events.sys p act).map fun r =>
      { w with events := ⟨r.1, w.events.hist.record p r.2⟩ }
  else none

/-- What a call that has returned returns. -/
def State.ret (w : State τ) (p : Party τ) : Option (ℤ × Out) :=
  match w.events.sys.pc p with
  | .returned _ ret out => some (ret, out)
  | _ => none

/-- One step. -/
def startStep (variant : Party τ → CasVariant) (w : State τ) : StartAct τ → Option (State τ)
  | .deviceEventTx t msg => w.onQueue variant (.inl t) (.call (.eventTx msg))
  | .send t word => w.onQueue variant (.inl t) (.step word)
  | .ring t =>
      match w.ret (.inl t) with
      | none => none
      | some (ret, _) =>
          (w.onQueue variant (.inl t) .leave).map fun w' =>
            { w' with pending := if ret = 0 then true else w'.pending }
  | .take =>
      if w.phase .ntfn = .idle ∧ w.pending = true ∧ w.registered = true then
        some ({ w with pending := false, registered := false }.goto .ntfn .registering)
      else none
  | .register r =>
      if w.phase r = .registering then some ({ w with registered := true }.goto r .responses)
      else none
  | .response r msg =>
      if w.phase r = .responses then some (w.goto r (.processing .response msg)) else none
  | .responsesDone r =>
      if w.phase r = .responses then some (w.goto r (.draining 0)) else none
  | .eventRx r =>
      match w.phase r with
      | .draining _ => w.onQueue variant (.inr r) (.call .eventRx)
      | _ => none
  | .receive r word =>
      match w.phase r with
      | .draining _ => w.onQueue variant (.inr r) (.step word)
      | _ => none
  | .handle r =>
      match w.phase r, w.ret (.inr r) with
      | .draining rc, some (ret, out) =>
          (w.onQueue variant (.inr r) .leave).map fun w' => w'.goto r (afterRx rc ret out)
      | _, _ => none
  | .process r rc =>
      match w.phase r with
      | .processing l msg =>
          if IsStart msg then none else some ((w.done r l msg).goto r (next l rc))
      | _ => none
  | .store r =>
      match w.phase r with
      | .processing l msg =>
          if IsStart msg then some (w.stored r l msg) else none
      | _ => none
  | .post r =>
      match w.phase r with
      | .posting l => some (w.posted r l)
      | _ => none
  | .check =>
      if w.phase .boot = .idle ∧ w.waiter = .checking then
        some { w with waiter := if w.okToRun then .past else .waiting }
      else none
  | .wait =>
      if w.waiter = .waiting ∧ 0 < w.backendStarted then
        some { w with backendStarted := w.backendStarted - 1, waiter := .checking }
      else none

/-- Initially the queue is empty, and `_ntfn_callback` has just been called by
`libsel4vm_io_proxy_init`. -/
def State.initial : State τ where
  events := .initial
  pending := false
  registered := false
  phase r := if r = .boot then .registering else .idle
  waiter := .checking
  okToRun := false
  backendStarted := 0
  handled := []
  responses := []

/-- The startup under any interleaving, with fresh copies of markers. -/
def startLts (variant : Party τ → CasVariant) : Lts (State τ) (StartAct τ) :=
  .ofFun (fun w => w = .initial) (startStep variant)

end System

/-! ### What `rpc_process` does to the flag -/

section Flag

variable {β γ : Type} [DecidableEq β]

omit [DecidableEq β] in
theorem keepsTables_okToRun {d d' : DeviceTables β} (h : KeepsTables d d') :
    d'.okToRun = d.okToRun := by
  obtain ⟨vm, intx, rfl⟩ := h
  rfl

theorem emudevIrqSet_okToRun (d : DeviceTables β) (x : Answers) (ioProxy : β)
    (irq op : BitVec 32) : (emudevIrqSet d x ioProxy irq op).2.okToRun = d.okToRun := by
  cases hdev : irqIsEmulatedDevice irq with
  | false =>
      unfold emudevIrqSet
      rw [hdev]
      rfl
  | true =>
      cases hfind : irqResFind d ioProxy irq with
      | some line =>
          rw [emudevIrqSet_some x hdev hfind]
          exact keepsTables_okToRun (emudevIrqOp_keepsTables d x line op)
      | none =>
          rw [emudevIrqSet_none x hdev hfind, emudevIrqNew]
          split
          · rfl
          · split
            · rfl
            · rw [keepsTables_okToRun (emudevIrqOp_keepsTables _ x _ op)]
              rfl

theorem emudevMmioConfig_okToRun (d : DeviceTables β) (x : Answers) (ioProxy : β)
    (addr size flags : Word) :
    (emudevMmioConfig d x ioProxy addr size flags).2.okToRun = d.okToRun := by
  unfold emudevMmioConfig
  split
  · rfl
  · split
    · unfold mmioResFree
      split <;> rfl
    · unfold mmioResAssign
      split
      · rfl
      · simp only [apply_ite Prod.snd, apply_ite DeviceTables.okToRun, ite_self]

theorem handlePci_okToRun (d : DeviceTables β) (x : Answers) (ioProxy : β) (op : Word)
    (msg : RpcMsg) : (handlePci x ioProxy op msg d).2.okToRun = d.okToRun := by
  have hset : ∀ (d : DeviceTables β) devfn level,
      (pcidevIntxSet d x ioProxy devfn level).2.okToRun = d.okToRun :=
    fun d devfn level => keepsTables_okToRun (pcidevIntxSet_keepsTables d x ioProxy devfn level)
  unfold handlePci handledUnless
  split
  · split
    · rfl
    · show (handlePciIntx d x ioProxy _ _).2.okToRun = d.okToRun
      unfold handlePciIntx
      split
      · exact hset d _ true
      · split
        · exact hset d _ false
        · split
          · simp only [apply_ite Prod.snd, apply_ite DeviceTables.okToRun, hset, ite_self]
          · rfl
  · split
    · show (pcidevRegister d x ioProxy _).2.okToRun = d.okToRun
      unfold pcidevRegister
      simp only [apply_ite Prod.snd, apply_ite DeviceTables.okToRun, ite_self]
    · rfl

theorem handleEmudev_okToRun (d : DeviceTables β) (x : Answers) (ioProxy : β) (op : Word)
    (msg : RpcMsg) : (handleEmudev x ioProxy op msg d).2.okToRun = d.okToRun := by
  unfold handleEmudev handledUnless
  split
  · exact emudevMmioConfig_okToRun d x ioProxy _ _ _
  · split
    · exact emudevIrqSet_okToRun d x ioProxy _ _
    · rfl

omit [DecidableEq β] in
/-- What no callback changes, the callbacks in turn leave. -/
theorem runCallbacks_okToRun {cbs : List (Callback β)}
    (h : ∀ cb ∈ cbs, ∀ d, (cb d).2.okToRun = d.okToRun) (d : DeviceTables β) :
    (runCallbacks cbs d).2.okToRun = d.okToRun := by
  induction cbs generalizing d with
  | nil => rfl
  | cons cb cbs ih =>
      have hcb := h cb List.mem_cons_self d
      have hrest := ih (fun cb' hmem => h cb' (List.mem_cons_of_mem cb hmem)) (cb d).2
      show (if (cb d).1 = .none then runCallbacks cbs (cb d).2 else cb d).2.okToRun = d.okToRun
      split
      · rw [hrest, hcb]
      · exact hcb

/-- Only a start message sets the flag. -/
theorem processEvent_okToRun (v2m : Option (Msi.Gicv2m γ)) (x : Answers) (mmio : RpcmsgRc)
    (ioProxy : β) {msg : RpcMsg} (hmsg : ¬ IsStart msg) (d : DeviceTables β) :
    (processEvent v2m x mmio ioProxy msg d).2.okToRun = d.okToRun := by
  unfold processEvent rpcProcess
  refine runCallbacks_okToRun ?_ d
  intro cb hmem d
  simp only [List.mem_cons, List.not_mem_nil, or_false] at hmem
  rcases hmem with rfl | rfl | rfl | rfl | rfl
  · rfl
  · rfl
  · exact handlePci_okToRun d x ioProxy _ msg
  · exact handleEmudev_okToRun d x ioProxy _ msg
  · have hop : qemuOp (msg mr0) ≠ qemuOpStartVm := hmsg
    rw [handleControl, if_neg hop]

variable {τ : Type} [DecidableEq τ]

omit [DecidableEq τ] in
@[simp] theorem State.goto_self (w : State τ) (r : Receiver) (p : Phase) :
    (w.goto r p).phase r = p :=
  Function.update_self ..

omit [DecidableEq τ] in
theorem State.done_okToRun (w : State τ) (r : Receiver) (l : Source) (msg : RpcMsg) :
    (w.done r l msg).okToRun = w.okToRun := by
  cases l <;> rfl

/-- **`rpc_process` is simulated.**  Whatever `rpc_process` returns and makes of the flag, the steps
of the receiver can do. -/
theorem processEvent_simulated (variant : Party τ → CasVariant) {w : State τ} {r : Receiver}
    {l : Source} {msg : RpcMsg} (hphase : w.phase r = .processing l msg)
    (v2m : Option (Msi.Gicv2m γ)) (x : Answers) (mmio : RpcmsgRc) (ioProxy : β)
    {d : DeviceTables β} (hflag : d.okToRun ioProxy = w.okToRun) :
    ∃ ls w', (startLts variant).Run w ls w' ∧
      w'.phase r = next l (some (processEvent v2m x mmio ioProxy msg d).1) ∧
      w'.okToRun = (processEvent v2m x mmio ioProxy msg d).2.okToRun ioProxy := by
  by_cases hmsg : IsStart msg
  · rw [processEvent_startVm v2m x mmio ioProxy hmsg]
    have hstore : startStep variant w (.store r) = some (w.stored r l msg) := by
      simp only [startStep, hphase, if_pos hmsg]
    have hmid : (w.stored r l msg).phase r = .posting l := State.goto_self _ r _
    have hpost : startStep variant (w.stored r l msg) (.post r)
        = some ((w.stored r l msg).posted r l) := by
      simp only [startStep, hmid]
    refine ⟨_, _, (Lts.Run.single hstore).snoc hpost, State.goto_self _ r _, ?_⟩
    exact (Function.update_self ioProxy true d.okToRun).symm
  · have hprocess : ∀ rc, startStep variant w (.process r (some rc))
        = some ((w.done r l msg).goto r (next l (some rc))) := by
      intro rc
      simp only [startStep, hphase, if_neg hmsg]
    refine ⟨_, _, Lts.Run.single (hprocess _), State.goto_self _ r _, ?_⟩
    rw [processEvent_okToRun v2m x mmio ioProxy hmsg d, hflag]
    exact w.done_okToRun r l msg

end Flag

/-! ### Everything a step can do -/

section Moves

variable {τ : Type} [DecidableEq τ] {variant : Party τ → CasVariant}

theorem State.onQueue_eq_some {w w' : State τ} {p : Party τ} {act : Act}
    (h : w.onQueue variant p act = some w') :
    ∃ v, (worldLts variant).step w.events (p, act) v ∧ w' = { w with events := v } := by
  unfold State.onQueue at h
  by_cases hfresh : Fresh w.events p
  · rw [if_pos hfresh] at h
    obtain ⟨r, hr, rfl⟩ := Option.map_eq_some_iff.mp h
    exact ⟨_, ⟨hfresh, r.1, r.2, hr, rfl⟩, rfl⟩
  · rw [if_neg hfresh] at h
    cases h

omit [DecidableEq τ] in
theorem State.ret_eq_some {w : State τ} {p : Party τ} {ret : ℤ} {out : Out}
    (h : w.ret p = some (ret, out)) : ∃ op, w.events.sys.pc p = .returned op ret out := by
  unfold State.ret at h
  split at h
  · rename_i op ret' out' hpc
    cases h
    exact ⟨op, hpc⟩
  · cases h

/-- The acts of a sender: a call enqueues an event, and a doorbell that is owed is rung. -/
structure Sends (w : State τ) (t : τ) (act : Act) (pending : Bool) : Prop where
  call : ∀ op, act = .call op → ∃ msg, op = .eventTx msg
  keep : w.pending = true → pending = true
  ring : act = .leave → Owes (w.events.sys.pc (.inl t)) → pending = true

/-- `StartMoves variant w w'`: what a step from `w` to `w'` can be. -/
inductive StartMoves (variant : Party τ → CasVariant) (w : State τ) : State τ → Prop
  | send (t : τ) (act : Act) {v : World (Party τ)} {pending : Bool}
      (hstep : (worldLts variant).step w.events (.inl t, act) v) (hact : Sends w t act pending) :
      StartMoves variant w { w with events := v, pending := pending }
  | drain (r : Receiver) (rc : ℤ) (act : Act) {v : World (Party τ)}
      (hphase : w.phase r = .draining rc)
      (hstep : (worldLts variant).step w.events (.inr r, act) v)
      (hcall : ∀ op, act = .call op → op = .eventRx) (hact : act ≠ .leave) :
      StartMoves variant w { w with events := v }
  | handle (r : Receiver) (rc : ℤ) (op : Op) (ret : ℤ) (out : Out) {v : World (Party τ)}
      (hphase : w.phase r = .draining rc) (hpc : w.events.sys.pc (.inr r) = .returned op ret out)
      (hstep : (worldLts variant).step w.events (.inr r, .leave) v) :
      StartMoves variant w ({ w with events := v }.goto r (afterRx rc ret out))
  | take (hphase : w.phase .ntfn = .idle) :
      StartMoves variant w
        ({ w with pending := false, registered := false }.goto .ntfn .registering)
  | register (r : Receiver) (hphase : w.phase r = .registering) :
      StartMoves variant w ({ w with registered := true }.goto r .responses)
  | response (r : Receiver) (msg : RpcMsg) (hphase : w.phase r = .responses) :
      StartMoves variant w (w.goto r (.processing .response msg))
  | responsesDone (r : Receiver) (hphase : w.phase r = .responses) :
      StartMoves variant w (w.goto r (.draining 0))
  | process (r : Receiver) (l : Source) (msg : RpcMsg) (rc : Option ℤ)
      (hphase : w.phase r = .processing l msg) (hmsg : ¬ IsStart msg) :
      StartMoves variant w ((w.done r l msg).goto r (next l rc))
  | store (r : Receiver) (l : Source) (msg : RpcMsg) (hphase : w.phase r = .processing l msg)
      (hmsg : IsStart msg) : StartMoves variant w (w.stored r l msg)
  | post (r : Receiver) (l : Source) (hphase : w.phase r = .posting l) :
      StartMoves variant w (w.posted r l)
  | check (hphase : w.phase .boot = .idle) :
      StartMoves variant w { w with waiter := if w.okToRun then .past else .waiting }
  | wait (hwaiter : w.waiter = .waiting) :
      StartMoves variant w { w with backendStarted := w.backendStarted - 1, waiter := .checking }

/-- **Step inversion.** -/
theorem startStep_moves {w w' : State τ} {l : StartAct τ} (h : startStep variant w l = some w') :
    StartMoves variant w w' := by
  cases l with
  | deviceEventTx t msg =>
      obtain ⟨v, hstep, rfl⟩ := State.onQueue_eq_some h
      refine .send t _ hstep ⟨?_, id, nofun⟩
      intro op hop
      cases hop
      exact ⟨msg, rfl⟩
  | send t word =>
      obtain ⟨v, hstep, rfl⟩ := State.onQueue_eq_some h
      exact .send t _ hstep ⟨nofun, id, nofun⟩
  | ring t =>
      simp only [startStep] at h
      split at h
      · cases h
      · rename_i ret out hret
        obtain ⟨w₁, hw₁, rfl⟩ := Option.map_eq_some_iff.mp h
        obtain ⟨v, hstep, rfl⟩ := State.onQueue_eq_some hw₁
        refine .send t _ hstep ⟨nofun, ?_, ?_⟩
        · intro hpending
          rw [hpending, ite_self]
        · intro _ howes
          obtain ⟨op, hpc⟩ := State.ret_eq_some hret
          rw [hpc] at howes
          rcases howes with hfly | ⟨op', out', he⟩
          · exact hfly.elim
          · cases he
            exact if_pos rfl
  | take =>
      simp only [startStep] at h
      split at h
      · rename_i hcond
        cases h
        exact .take hcond.1
      · cases h
  | register r =>
      simp only [startStep] at h
      split at h
      · rename_i hphase
        cases h
        exact .register r hphase
      · cases h
  | response r msg =>
      simp only [startStep] at h
      split at h
      · rename_i hphase
        cases h
        exact .response r msg hphase
      · cases h
  | responsesDone r =>
      simp only [startStep] at h
      split at h
      · rename_i hphase
        cases h
        exact .responsesDone r hphase
      · cases h
  | eventRx r =>
      simp only [startStep] at h
      split at h
      · rename_i rc hphase
        obtain ⟨v, hstep, rfl⟩ := State.onQueue_eq_some h
        refine .drain r rc _ hphase hstep ?_ nofun
        intro op hop
        cases hop
        rfl
      · cases h
  | receive r word =>
      simp only [startStep] at h
      split at h
      · rename_i rc hphase
        obtain ⟨v, hstep, rfl⟩ := State.onQueue_eq_some h
        exact .drain r rc _ hphase hstep nofun nofun
      · cases h
  | handle r =>
      simp only [startStep] at h
      split at h
      · rename_i rc ret out hphase hret
        obtain ⟨w₁, hw₁, rfl⟩ := Option.map_eq_some_iff.mp h
        obtain ⟨v, hstep, rfl⟩ := State.onQueue_eq_some hw₁
        obtain ⟨op, hpc⟩ := State.ret_eq_some hret
        exact .handle r rc op ret out hphase hpc hstep
      · cases h
  | process r rc =>
      simp only [startStep] at h
      split at h
      · rename_i l msg hphase
        split at h
        · cases h
        · rename_i hmsg
          cases h
          exact .process r l msg rc hphase hmsg
      · cases h
  | store r =>
      simp only [startStep] at h
      split at h
      · rename_i l msg hphase
        split at h
        · rename_i hmsg
          cases h
          exact .store r l msg hphase hmsg
        · cases h
      · cases h
  | post r =>
      simp only [startStep] at h
      split at h
      · rename_i l hphase
        cases h
        exact .post r l hphase
      · cases h
  | check =>
      simp only [startStep] at h
      split at h
      · rename_i hcond
        cases h
        exact .check hcond.1
      · cases h
  | wait =>
      simp only [startStep] at h
      split at h
      · rename_i hcond
        cases h
        exact .wait hcond.1
      · cases h

end Moves

end TiiSel4Vm.Startup
