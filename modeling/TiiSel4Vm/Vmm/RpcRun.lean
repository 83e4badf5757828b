import TiiSel4Vm.Lib.ForEach
import TiiSel4Vm.Rpc.Channel
import TiiSel4Vm.Vmm.Devices

/-!
# The notification thread's `rpc_run`

`rpc_run` takes responses until there is none or one fails, then events until there is none or one
fails.  The loops share one error variable, and a response's buffer is reclaimed in the increment of
its loop, which `break` skips.

* `run_accounted_iff` — the runs that report every failure and reclaim every response;
* `rpcRun_isSome` — a run over queues with nothing in progress ends;
* `failure_overwritten` — a response fails, and `rpc_run` returns 0 without reclaiming it.
-/

namespace TiiSel4Vm.RpcRun

open TiiSel4Vm.RpcQueue TiiSel4Vm.Devices TiiSel4Vm.ForEach

/-! ### The code -/

/-- What `rpc_run` reaches through its `io_proxy_t`; `rest` is what only the handlers use. -/
structure RunState (ρ : Type) where
  response : Queue
  deviceEvent : Queue
  /-- the messages of the response queue -/
  buffer : RpcMsgBuffer
  /-- the messages of the event queue -/
  eventBuffer : RpcMsgBuffer
  bufferState : Bitmap
  rest : ρ

/-- An `rpc_callback_fn_t`: from an operation and a message, what it returns, or `none` when an
assertion fails, and what it leaves. -/
abbrev RpcCallback (ρ : Type) := Word → RpcMsg → RunState ρ → Option RpcmsgRc × RunState ρ

variable {ρ : Type}

/-- The loop of `rpc_process`. -/
def runCallbacks (op : Word) (msg : RpcMsg) :
    List (RpcCallback ρ) → RunState ρ → Option RpcmsgRc × RunState ρ
  | [], w => (some .none, w)
  | cb :: cbs, w =>
      match cb op msg w with
      | (some .none, w') => runCallbacks op msg cbs w'
      | r => r

/-- `rpc_process`, for any `rpc_callbacks`. -/
def rpcProcess (cbs : List (RpcCallback ρ)) (msg : RpcMsg) (w : RunState ρ) :
    Option ℤ × RunState ρ :=
  let r := runCallbacks (qemuOp (msg mr0)) msg cbs w
  (r.1.map fun rc => if rc = .handled then 0 else -1, r.2)

/-- A turn of `for_each_driver_rpc_resp`. -/
def respTurn (v : CasVariant) (cbs : List (RpcCallback ρ)) (w : RunState ρ) :
    Turn (Fin rpcmsgBufferSize) (RunState ρ) :=
  match rpcmsgReceiveResponse v w.response w.buffer with
  | none => .stuck
  | some (q, none) => .done { w with response := q }
  | some (q, some (resp, _)) =>
      match rpcProcess cbs (w.buffer resp) { w with response := q } with
      | (none, _) => .stuck
      | (some rc, w') => .item resp rc w'

/-- `rpcmsg_reclaim_buffer` in the increment of `for_each_rpc_resp`. -/
def reclaim (resp : Fin rpcmsgBufferSize) (w : RunState ρ) : RunState ρ :=
  { w with bufferState := rpcmsgReclaimBuffer w.bufferState resp }

/-- A turn of `for_each_device_event`. -/
def eventTurn (v : CasVariant) (cbs : List (RpcCallback ρ)) (w : RunState ρ) :
    Turn RpcMsg (RunState ρ) :=
  match rpcmsgEventRx v w.deviceEvent w.eventBuffer with
  | none => .stuck
  | some (q, none) => .done { w with deviceEvent := q }
  | some (q, some event) =>
      match rpcProcess cbs event { w with deviceEvent := q } with
      | (none, _) => .stuck
      | (some rc, w') => .item event rc w'

/-- The increment of `for_each_device_event` is empty. -/
def keep (_ : RpcMsg) (w : RunState ρ) : RunState ρ := w

/-- What a call of `rpc_run` returns and leaves, the messages it dequeued, each with what
`rpc_process` returned for it, and the responses it reclaimed. -/
structure RunEnd (ρ : Type) where
  ret : ℤ
  world : RunState ρ
  responses : List (Fin rpcmsgBufferSize × ℤ)
  reclaimed : List (Fin rpcmsgBufferSize)
  events : List (RpcMsg × ℤ)

/-- `rpc_run`, if it returns within `fuel` turns of each loop. -/
def rpcRun (v : CasVariant) (cbs : List (RpcCallback ρ)) (fuel : ℕ) (w : RunState ρ) :
    Option (RunEnd ρ) :=
  match forEach (respTurn v cbs) reclaim fuel w 0 with
  | none => none
  | some r =>
      match forEach (eventTurn v cbs) keep fuel r.state r.rc with
      | none => none
      | some e => some ⟨e.rc, e.state, r.items, r.released, e.items⟩

/-! ### What a run accounts for -/

/-- If the call returned 0, all messages were processed; each response was reclaimed once. -/
structure Accounted (r : RunEnd ρ) : Prop where
  zero : r.ret = 0 → (∀ i ∈ r.responses, i.2 = 0) ∧ ∀ i ∈ r.events, i.2 = 0
  reclaimed : r.reclaimed = r.responses.map Prod.fst

/-- The call comes to a response that `rpc_process` fails on. -/
def ResponseFails (v : CasVariant) (cbs : List (RpcCallback ρ)) (w : RunState ρ) : Prop :=
  Fails (respTurn v cbs) reclaim w

/-- A callback that leaves the buffer state alone. -/
def KeepsBufferState (cb : RpcCallback ρ) : Prop :=
  ∀ op msg w, (cb op msg w).2.bufferState = w.bufferState

section Run

variable {v : CasVariant} {cbs : List (RpcCallback ρ)} {w : RunState ρ} {fuel : ℕ} {r : RunEnd ρ}

/-- A call of `rpc_run` that returns runs both loops. -/
theorem rpcRun_loops (h : rpcRun v cbs fuel w = some r) :
    ∃ l e, forEach (respTurn v cbs) reclaim fuel w 0 = some l ∧
      forEach (eventTurn v cbs) keep fuel l.state l.rc = some e ∧
      r = ⟨e.rc, e.state, l.items, l.released, e.items⟩ := by
  unfold rpcRun at h
  cases hresp : forEach (respTurn v cbs) reclaim fuel w 0 with
  | none =>
      rw [hresp] at h
      cases h
  | some l =>
      simp only [hresp] at h
      cases hevent : forEach (eventTurn v cbs) keep fuel l.state l.rc with
      | none =>
          rw [hevent] at h
          cases h
      | some e =>
          rw [hevent] at h
          cases h
          exact ⟨l, e, rfl, hevent, rfl⟩

/-- What every callback leaves, a message leaves. -/
theorem runCallbacks_keeps {α : Type} {f : RunState ρ → α} {op : Word} {msg : RpcMsg}
    (hcbs : ∀ cb ∈ cbs, ∀ w, f (cb op msg w).2 = f w) (w : RunState ρ) :
    f (runCallbacks op msg cbs w).2 = f w := by
  induction cbs generalizing w with
  | nil => rfl
  | cons cb cbs ih =>
      have hcb := hcbs cb List.mem_cons_self w
      unfold runCallbacks
      split
      · rename_i w' heq
        rw [heq] at hcb
        rw [ih (fun cb' hmem => hcbs cb' (List.mem_cons_of_mem _ hmem)), hcb]
      · exact hcb

theorem rpcProcess_bufferState (hcbs : ∀ cb ∈ cbs, KeepsBufferState cb) {msg : RpcMsg}
    {rc : Option ℤ} {w' : RunState ρ} (h : rpcProcess cbs msg w = (rc, w')) :
    w'.bufferState = w.bufferState := by
  have hleaves : (rpcProcess cbs msg w).2 = w' := by rw [h]
  rw [← hleaves]
  exact runCallbacks_keeps (f := fun s => s.bufferState) (fun cb hmem => hcbs cb hmem _ msg) w

/-- A turn of the response loop took what `rpcmsg_receive_response` returned. -/
theorem respTurn_item {resp : Fin rpcmsgBufferSize} {rc : ℤ} {w' : RunState ρ}
    (h : respTurn v cbs w = .item resp rc w') :
    ∃ q id, rpcmsgReceiveResponse v w.response w.buffer = some (q, some (resp, id)) ∧
      rpcProcess cbs (w.buffer resp) { w with response := q } = (some rc, w') := by
  unfold respTurn at h
  split at h
  · cases h
  · cases h
  · rename_i q resp' id hreceive
    split at h
    · cases h
    · rename_i rc' w'' hprocess
      cases h
      exact ⟨q, id, hreceive, hprocess⟩

/-- A turn of the event loop took what `rpcmsg_event_rx` copied. -/
theorem eventTurn_item {event : RpcMsg} {rc : ℤ} {w' : RunState ρ}
    (h : eventTurn v cbs w = .item event rc w') :
    ∃ q, rpcmsgEventRx v w.deviceEvent w.eventBuffer = some (q, some event) ∧
      rpcProcess cbs event { w with deviceEvent := q } = (some rc, w') := by
  unfold eventTurn at h
  split at h
  · cases h
  · cases h
  · rename_i q event' hreceive
    split at h
    · cases h
    · rename_i rc' w'' hprocess
      cases h
      exact ⟨q, hreceive, hprocess⟩

theorem respTurn_done {w' : RunState ρ} (h : respTurn v cbs w = .done w') :
    ∃ q, w' = { w with response := q } := by
  unfold respTurn at h
  split at h
  · cases h
  · rename_i q _
    cases h
    exact ⟨q, rfl⟩
  · split at h <;> cases h

theorem eventTurn_done {w' : RunState ρ} (h : eventTurn v cbs w = .done w') :
    ∃ q, w' = { w with deviceEvent := q } := by
  unfold eventTurn at h
  split at h
  · cases h
  · rename_i q _
    cases h
    exact ⟨q, rfl⟩
  · split at h <;> cases h

/-- With callbacks that leave it alone, only the increments change the buffer state. -/
theorem rpcRun_bufferState (hcbs : ∀ cb ∈ cbs, KeepsBufferState cb)
    (h : rpcRun v cbs fuel w = some r) :
    r.world.bufferState = r.reclaimed.foldl rpcmsgReclaimBuffer w.bufferState := by
  obtain ⟨l, e, hresp, hevent, rfl⟩ := rpcRun_loops h
  have hfirst : l.state.bufferState = l.released.foldl rpcmsgReclaimBuffer w.bufferState := by
    refine forEach_state (f := fun s : RunState ρ => s.bufferState) ?_ ?_ (fun _ _ => rfl) hresp
    · intro s s' hdone
      obtain ⟨q, rfl⟩ := respTurn_done hdone
      rfl
    · intro s resp rc s' hitem
      obtain ⟨q, id, -, hp⟩ := respTurn_item hitem
      have hleaves := rpcProcess_bufferState hcbs hp
      exact hleaves
  have hsecond : e.state.bufferState
      = e.released.foldl (fun b _ => b) l.state.bufferState := by
    refine forEach_state (f := fun s : RunState ρ => s.bufferState) ?_ ?_ (fun _ _ => rfl) hevent
    · intro s s' hdone
      obtain ⟨q, rfl⟩ := eventTurn_done hdone
      rfl
    · intro s event rc s' hitem
      obtain ⟨q, -, hp⟩ := eventTurn_item hitem
      have hleaves := rpcProcess_bufferState hcbs hp
      exact hleaves
  show e.state.bufferState = _
  rw [hsecond, List.foldl_fixed, hfirst]

/-- **Runs.**  A call of `rpc_run` that returns has reported every failure and reclaimed every
response it dequeued exactly when it came to no response that fails. -/
theorem run_accounted_iff (h : rpcRun v cbs fuel w = some r) :
    (Accounted r ↔ ¬ ResponseFails v cbs w) ∧
      ((∀ cb ∈ cbs, KeepsBufferState cb) →
        r.world.bufferState = r.reclaimed.foldl rpcmsgReclaimBuffer w.bufferState) := by
  refine ⟨?_, fun hcbs => rpcRun_bufferState hcbs h⟩
  obtain ⟨l, e, hresp, hevent, rfl⟩ := rpcRun_loops h
  rcases forEach_completed_or_broken hresp with ⟨hok, hcompleted⟩ | ⟨hfails, hbroken⟩
  · refine iff_of_true ⟨?_, hcompleted.released⟩ hok
    intro hzero
    refine ⟨hcompleted.zero, ?_⟩
    rcases forEach_completed_or_broken hevent with ⟨-, hdone⟩ | ⟨-, hstopped⟩
    · exact hdone.zero
    · exact absurd hzero hstopped.rc_ne
  · refine iff_of_false ?_ (fun hnot => hnot hfails)
    intro haccounted
    exact hbroken.released_ne haccounted.reclaimed

/-! ### Runs end -/

/-- The queues have nothing in progress. -/
def Settled (w : RunState ρ) : Prop :=
  (∃ c xs, Represents w.response c xs) ∧ ∃ c xs, Represents w.deviceEvent c xs

/-- A callback that comes back and leaves the queues alone. -/
def KeepsQueues (cb : RpcCallback ρ) : Prop :=
  ∀ op msg w, (cb op msg w).1 ≠ none ∧ (cb op msg w).2.response = w.response ∧
    (cb op msg w).2.deviceEvent = w.deviceEvent

theorem runCallbacks_returns (hcbs : ∀ cb ∈ cbs, KeepsQueues cb) (op : Word) (msg : RpcMsg)
    (w : RunState ρ) : (runCallbacks op msg cbs w).1 ≠ none := by
  induction cbs generalizing w with
  | nil => simp [runCallbacks]
  | cons cb cbs ih =>
      have hcb := hcbs cb List.mem_cons_self op msg w
      unfold runCallbacks
      split
      · exact ih (fun cb' hmem => hcbs cb' (List.mem_cons_of_mem _ hmem)) _
      · exact hcb.1

theorem rpcProcess_keepsQueues (hcbs : ∀ cb ∈ cbs, KeepsQueues cb) (msg : RpcMsg) (w : RunState ρ) :
    ∃ rc w', rpcProcess cbs msg w = (some rc, w') ∧ w'.response = w.response ∧
      w'.deviceEvent = w.deviceEvent := by
  have hresp := runCallbacks_keeps (f := fun s => s.response)
    (fun cb hmem w => (hcbs cb hmem (qemuOp (msg mr0)) msg w).2.1) w
  have hevent := runCallbacks_keeps (f := fun s => s.deviceEvent)
    (fun cb hmem w => (hcbs cb hmem (qemuOp (msg mr0)) msg w).2.2) w
  have hnone := runCallbacks_returns hcbs (qemuOp (msg mr0)) msg w
  obtain ⟨rc, hrc⟩ := Option.ne_none_iff_exists'.mp hnone
  refine ⟨if rc = .handled then 0 else -1, _, ?_, hresp, hevent⟩
  simp only [rpcProcess, hrc, Option.map_some]

/-- What a turn of the response loop does on settled queues. -/
theorem respTurn_settled (hcbs : ∀ cb ∈ cbs, KeepsQueues cb) {c : ℕ}
    {xs : List (Fin rpcmsgBufferSize)} (h : Represents w.response c xs) :
    (xs = [] ∧ respTurn v cbs w = .done w) ∨
      ∃ resp rest rc w', xs = resp :: rest ∧ respTurn v cbs w = .item resp rc w' ∧
        Represents w'.response (c + 1) rest ∧ w'.deviceEvent = w.deviceEvent := by
  cases xs with
  | nil =>
      refine .inl ⟨rfl, ?_⟩
      simp only [respTurn, receiveResponse_empty v w.buffer h]
  | cons resp rest =>
      obtain ⟨q, hreceive, hq⟩ := receiveResponse_represents v w.buffer h
      obtain ⟨rc, w', hp, hresp, hevent⟩ :=
        rpcProcess_keepsQueues hcbs (w.buffer resp) { w with response := q }
      refine .inr ⟨resp, rest, rc, w', rfl, ?_, ?_, hevent⟩
      · simp only [respTurn, hreceive, hp]
      · rw [hresp]
        exact hq

/-- What a turn of the event loop does on settled queues. -/
theorem eventTurn_settled (hcbs : ∀ cb ∈ cbs, KeepsQueues cb) {c : ℕ}
    {xs : List (Fin rpcmsgBufferSize)} (h : Represents w.deviceEvent c xs) :
    (xs = [] ∧ eventTurn v cbs w = .done w) ∨
      ∃ msg rest rc w', xs = msg :: rest ∧ eventTurn v cbs w = .item (w.eventBuffer msg) rc w' ∧
        Represents w'.deviceEvent (c + 1) rest := by
  cases xs with
  | nil =>
      refine .inl ⟨rfl, ?_⟩
      simp only [eventTurn, eventRx_empty h]
  | cons msg rest =>
      obtain ⟨q, hreceive, hq⟩ := eventRx_represents v w.eventBuffer h
      obtain ⟨rc, w', hp, hresp, hevent⟩ :=
        rpcProcess_keepsQueues hcbs (w.eventBuffer msg) { w with deviceEvent := q }
      refine .inr ⟨msg, rest, rc, w', rfl, ?_, ?_⟩
      · simp only [eventTurn, hreceive, hp]
      · rw [hevent]
        exact hq

/-- The response loop ends, and the event queue is as before. -/
theorem respLoop_ends (hcbs : ∀ cb ∈ cbs, KeepsQueues cb) {c : ℕ}
    {xs : List (Fin rpcmsgBufferSize)} (h : Represents w.response c xs)
    (hfuel : rpcmsgBufferSize < fuel) :
    ∃ l, forEach (respTurn v cbs) reclaim fuel w 0 = some l ∧
      l.state.deviceEvent = w.deviceEvent := by
  have hends : (forEach (respTurn v cbs) reclaim fuel w 0).isSome := by
    refine forEach_isSome (I := fun (s : RunState ρ) xs => ∃ c, Represents s.response c xs) ?_
      ⟨c, h⟩ (Nat.lt_of_le_of_lt h.length_le hfuel)
    rintro s xs ⟨c, hs⟩
    rcases respTurn_settled (v := v) hcbs hs with
      ⟨-, hdone⟩ | ⟨resp, rest, rc, w', hxs, hitem, hw', -⟩
    · exact .inl ⟨s, hdone⟩
    · exact .inr ⟨resp, rest, resp, rc, w', hxs, hitem, c + 1, hw'⟩
  obtain ⟨l, hl⟩ := Option.isSome_iff_exists.mp hends
  have hkept : l.state.deviceEvent = l.released.foldl (fun q _ => q) w.deviceEvent := by
    refine forEach_state (f := fun s : RunState ρ => s.deviceEvent) ?_ ?_ (fun _ _ => rfl) hl
    · intro s s' hdone
      obtain ⟨q, rfl⟩ := respTurn_done hdone
      rfl
    · intro s resp rc s' hitem
      obtain ⟨q, id, -, hp⟩ := respTurn_item hitem
      obtain ⟨rc', w', hp', -, hevent⟩ :=
        rpcProcess_keepsQueues hcbs (s.buffer resp) { s with response := q }
      rw [hp] at hp'
      cases hp'
      exact hevent
  exact ⟨l, hl, by rw [hkept, List.foldl_fixed]⟩

/-- **Runs end.**  When nothing is in progress on the queues and the callbacks come back and leave
them alone, `rpc_run` returns. -/
theorem rpcRun_isSome (hcbs : ∀ cb ∈ cbs, KeepsQueues cb) (hw : Settled w)
    (hfuel : rpcmsgBufferSize < fuel) : (rpcRun v cbs fuel w).isSome := by
  obtain ⟨⟨c, xs, hresp⟩, d, ys, hevent⟩ := hw
  obtain ⟨l, hl, hkept⟩ := respLoop_ends (v := v) hcbs hresp hfuel
  have hends : (forEach (eventTurn v cbs) keep fuel l.state l.rc).isSome := by
    refine forEach_isSome (I := fun (s : RunState ρ) xs => ∃ c, Represents s.deviceEvent c xs) ?_
      ⟨d, by rwa [hkept]⟩ (Nat.lt_of_le_of_lt hevent.length_le hfuel)
    rintro s xs ⟨c, hs⟩
    rcases eventTurn_settled (v := v) hcbs hs with ⟨-, hdone⟩ | ⟨msg, rest, rc, w', hxs, hitem, hw'⟩
    · exact .inl ⟨s, hdone⟩
    · exact .inr ⟨msg, rest, s.eventBuffer msg, rc, w', hxs, hitem, c + 1, hw'⟩
  obtain ⟨e, he⟩ := Option.isSome_iff_exists.mp hends
  simp only [rpcRun, hl, he, Option.isSome_some]

end Run

/-! ### The callbacks of the code -/

section Callbacks

variable {β : Type} [DecidableEq β]

/-- A callback that works on the device tables. -/
def onTables (cb : Word → RpcMsg → Callback β) : RpcCallback (DeviceTables β) := fun op msg w =>
  (some (cb op msg w.rest).1, { w with rest := (cb op msg w.rest).2 })

/-- `rpc_callbacks`, for the answers `x` and the results of `handle_mmio` and `handle_msi`. -/
def rpcCallbacks (x : Answers) (mmio : RpcmsgRc) (msi : RpcmsgRc × (Vm → Vm)) (ioProxy : β) :
    List (RpcCallback (DeviceTables β)) :=
  [onTables fun op _ => handleMmioEvent mmio op, onTables fun _ _ => handleMsi msi,
    onTables (handlePci x ioProxy), onTables (handleEmudev x ioProxy),
    onTables fun op _ => handleControl ioProxy op]

omit [DecidableEq β] in
theorem runCallbacks_onTables (cbs : List (Word → RpcMsg → Callback β)) (op : Word) (msg : RpcMsg)
    (w : RunState (DeviceTables β)) :
    runCallbacks op msg (cbs.map onTables) w
      = (some (Devices.runCallbacks (cbs.map fun cb => cb op msg) w.rest).1,
        { w with rest := (Devices.runCallbacks (cbs.map fun cb => cb op msg) w.rest).2 }) := by
  induction cbs generalizing w with
  | nil => rfl
  | cons cb cbs ih =>
      simp only [List.map_cons, runCallbacks, Devices.runCallbacks, onTables]
      cases hrc : (cb op msg w.rest).1 with
      | none =>
          rw [if_pos rfl]
          exact ih _
      | error => rw [if_neg (by decide), hrc]
      | handled => rw [if_neg (by decide), hrc]

/-- On these callbacks `rpc_process` is that of the device tables. -/
theorem rpcProcess_rpcCallbacks (x : Answers) (mmio : RpcmsgRc) (msi : RpcmsgRc × (Vm → Vm))
    (ioProxy : β) (msg : RpcMsg) (w : RunState (DeviceTables β)) :
    rpcProcess (rpcCallbacks x mmio msi ioProxy) msg w
      = (some (Devices.rpcProcess x mmio msi ioProxy msg w.rest).1,
        { w with rest := (Devices.rpcProcess x mmio msi ioProxy msg w.rest).2 }) := by
  have hrun : runCallbacks (qemuOp (msg mr0)) msg (rpcCallbacks x mmio msi ioProxy) w = _ :=
    runCallbacks_onTables [fun op _ => handleMmioEvent mmio op, fun _ _ => handleMsi msi,
      handlePci x ioProxy, handleEmudev x ioProxy, fun op _ => handleControl ioProxy op]
      (qemuOp (msg mr0)) msg w
  simp only [rpcProcess, hrun]
  rfl

theorem rpcCallbacks_keepsBufferState (x : Answers) (mmio : RpcmsgRc)
    (msi : RpcmsgRc × (Vm → Vm)) (ioProxy : β) :
    ∀ cb ∈ rpcCallbacks x mmio msi ioProxy, KeepsBufferState cb := by
  intro cb hmem op msg w
  simp only [rpcCallbacks, List.mem_cons, List.not_mem_nil, or_false] at hmem
  rcases hmem with rfl | rfl | rfl | rfl | rfl <;> rfl

end Callbacks

/-- A queue with message 0 in it. -/
def oneMessage : Queue :=
  { rpcmsgQueueInit with prod := ⟨⟨1#32, 1#32⟩, ⟨1#32, 1#32⟩⟩ }

/-- A response with the operation `op` and an event `QEMU_OP_START_VM`. -/
def responseAndEvent (op : Word) : RunState (DeviceTables Bool) where
  response := oneMessage
  deviceEvent := oneMessage
  buffer _ := eventMsg op 0#64 0#64 0#64
  eventBuffer _ := eventMsg qemuOpStartVm 0#64 0#64 0#64
  bufferState := [1#64]
  rest :=
    { vm := ⟨[], 0, [], fun _ => false⟩
      pciIntx := fun _ => ⟨0#32, 0#64⟩
      pciDevs := []
      irqs := []
      mmioReservations := []
      okToRun := fun _ => false }

/-- The callbacks of backend `true`, whose I/O requests finish well. -/
def someCallbacks : List (RpcCallback (DeviceTables Bool)) :=
  rpcCallbacks callsSucceed .handled (.none, id) true

/-- The response ends an I/O request: it and the event are accounted for, and its buffer is free. -/
theorem run_accounted_iff_mmio :
    ∃ r, rpcRun .user someCallbacks 2 (responseAndEvent qemuOpMmio) = some r ∧
      (r.ret, r.responses, r.events.length) = (0, [(0, 0)], 1) ∧
      Accounted r ∧ r.world.bufferState = [0#64] := by
  obtain ⟨r, hr⟩ := Option.isSome_iff_exists.mp
    (by decide +kernel : (rpcRun .user someCallbacks 2 (responseAndEvent qemuOpMmio)).isSome)
  have hvalues : (rpcRun .user someCallbacks 2 (responseAndEvent qemuOpMmio)).map
      (fun r => ((r.ret, r.responses, r.events.length), r.reclaimed))
        = some ((0, [(0, 0)], 1), [0]) := by
    decide +kernel
  rw [hr, Option.map_some, Option.some_inj, Prod.mk.injEq] at hvalues
  obtain ⟨hvalues, hreclaimed⟩ := hvalues
  obtain ⟨hiff, hstate⟩ := run_accounted_iff hr
  have hnot : ¬ ResponseFails .user someCallbacks (responseAndEvent qemuOpMmio) := by
    obtain ⟨l, e, hresp, -, rfl⟩ := rpcRun_loops hr
    rcases forEach_completed_or_broken hresp with ⟨hok, -⟩ | ⟨-, hbroken⟩
    · exact hok
    · -- a loop that stopped did not reclaim the response it stopped at
      have hitems : l.items = [(0, 0)] := congrArg (fun v => v.2.1) hvalues
      exact absurd (by rw [hitems]; exact hreclaimed) hbroken.released_ne
  refine ⟨r, hr, hvalues, hiff.mpr hnot, ?_⟩
  rw [hstate (rpcCallbacks_keepsBufferState callsSucceed .handled (.none, id) true), hreclaimed]
  decide +kernel

/-- The operation of the response is unknown and its processing fails; `rpc_run` goes on to the
event, returns 0, and the buffer stays lent. -/
theorem failure_overwritten :
    ∃ r, rpcRun .user someCallbacks 2 (responseAndEvent 63#64) = some r ∧
      (r.ret, r.responses, r.reclaimed, r.world.bufferState) = (0, [(0, -1)], [], [1#64]) ∧
      ¬ Accounted r := by
  have hends : (rpcRun .user someCallbacks 2 (responseAndEvent 63#64)).isSome := by
    decide +kernel
  obtain ⟨r, hr⟩ := Option.isSome_iff_exists.mp hends
  have hrun : (rpcRun .user someCallbacks 2 (responseAndEvent 63#64)).map
      (fun r => (r.ret, r.responses, r.reclaimed, r.world.bufferState))
        = some (0, [(0, -1)], [], [1#64]) := by
    decide +kernel
  rw [hr] at hrun
  have hvalues := Option.some.inj hrun
  refine ⟨r, hr, hvalues, ?_⟩
  intro haccounted
  have hreclaimed := haccounted.reclaimed
  simp only [Prod.mk.injEq] at hvalues
  rw [hvalues.2.1, hvalues.2.2.1] at hreclaimed
  cases hreclaimed

end TiiSel4Vm.RpcRun
