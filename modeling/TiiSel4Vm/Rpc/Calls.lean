import TiiSel4Vm.Rpc.NetworkRuns
import TiiSel4Vm.Rpc.Reboot

/-!
# Calls and answers

The parties of a driver rpc are wired by `vso_driver_rpc_init` to three queues of one iobuf, and
each uses a queue one way: the driver lends and reclaims messages, sends requests and receives
responses, a device part receives requests and forwards them or replies.

* `Uses` — which operations of a party are on which queue;
* `ruled_calls` — a rule for the calls is a rule for every operation in progress;
* `calls_answered` — a message that was sent as a request comes back once, as the response to it.
-/

namespace TiiSel4Vm.RpcQueue

open TiiSel4Vm.Transition
open TiiSel4Vm.Exchange (Depot Transfer exchangeLts)

/-! ### Calls that follow a rule -/

section Ruled

variable {κ τ : Type} [DecidableEq κ] [DecidableEq τ]

/-- The rule allows the operation that the act starts, if it starts one; only lenders lend and
reclaim. -/
def NetAct.Obeys (lender : τ → Prop) (rule : τ → κ → Op → Prop) : NetAct κ τ → Prop
  | .scan t => lender t
  | .mark t => lender t
  | .reclaim t _ => lender t
  | .enqueue t l msg => rule t l (.rpcEnqueue msg)
  | .dequeue t l => rule t l .rpcDequeue
  | _ => True

/-- The network when its threads follow a rule. -/
def ruledLts (variant : τ → CasVariant) (lender : τ → Prop) (rule : τ → κ → Op → Prop) :
    Lts (Net κ τ) (NetAct κ τ) :=
  (netLts variant).restrict fun _ act => act.Obeys lender rule

/-- Every operation in progress is one that the rule allows. -/
def Ruled (rule : τ → κ → Op → Prop) (n : Net κ τ) : Prop :=
  ∀ t l pc op, n.call t = some (l, pc) → pc.op = some op → op.IsPointer ∧ rule t l op

/-- The rule allows the transfer. -/
def Follows (lender : τ → Prop) (rule : τ → κ → Op → Prop) :
    Transfer κ τ (Fin rpcmsgBufferSize) → Prop
  | .issue t _ => lender t
  | .send t l msg => rule t l (.rpcEnqueue msg)
  | .receive t l _ => rule t l .rpcDequeue
  | .retire t _ => lender t

variable {variant : τ → CasVariant} {lender : τ → Prop} {rule : τ → κ → Op → Prop}
  {n n' : Net κ τ} {acts : List (NetAct κ τ)}

theorem Ruled.step [Fintype τ] {act : NetAct κ τ} (h : Ruled rule n) (hi : NetInv n)
    (hs : (ruledLts variant lender rule).step n act n') : Ruled rule n' := by
  obtain ⟨hobeys, hnet⟩ := hs
  intro u r pc op hcall hop
  by_cases hact : ∃ t, act = .access t
  · obtain ⟨t, rfl⟩ := hact
    obtain ⟨l, pc₀, q, pc', e, hbefore, rfl, hmove, hab⟩ := hi.access_cases hnet
    by_cases hut : u = t
    · subst hut
      have hpair : (l, pc') = (r, pc) := Option.some.inj (afterAccess_call.symm.trans hcall)
      cases hpair
      exact h u r pc₀ op hbefore ((hmove.op_eq hab).symm.trans hop)
    · have hsame : n.call u = some (r, pc) := (Function.update_of_ne hut _ _).symm.trans hcall
      exact h u r pc op hsame hop
  · have hstep : netStep variant n act = some n' := hnet.2
    rcases call_of_netStep hstep (fun t he => hact ⟨t, he⟩) u with
      hc | hc | ⟨l, op', hc, ⟨rfl, rfl⟩ | ⟨id, rfl, rfl⟩⟩
    · exact h u r pc op (hc ▸ hcall) hop
    · rw [hc] at hcall
      cases hcall
    · rw [hc] at hcall
      cases hcall
      cases hop
      exact ⟨trivial, hobeys⟩
    · rw [hc] at hcall
      cases hcall
      cases hop
      exact ⟨trivial, hobeys⟩

/-- **A rule for the calls is a rule for every operation in progress.** -/
theorem ruled_calls [Fintype τ] (h : (ruledLts variant lender rule).Reachable n) :
    Ruled rule n := by
  refine h.invariant (I := Ruled rule) (fun n hn t l pc op hcall => ?_) fun n act n' hr hi hs => ?_
  · cases hn
    cases hcall
  · exact hi.step (netInv_of_reachable hr.of_restrict) hs

omit [DecidableEq κ] [DecidableEq τ] in
/-- A transfer is the effect of a lend, a reclaim or an operation in progress. -/
theorem Ruled.follows (h : Ruled rule n) {act : NetAct κ τ} (hobeys : act.Obeys lender rule)
    {x : Transfer κ τ (Fin rpcmsgBufferSize)} (hx : n.transfer act = some x) :
    Follows lender rule x := by
  cases act with
  | mark t =>
      simp only [Net.transfer] at hx
      split at hx
      · cases hx
        exact hobeys
      · cases hx
  | reclaim t msg =>
      cases hx
      exact hobeys
  | access t =>
      simp only [Net.transfer] at hx
      split at hx
      · rename_i l op ot hcall
        obtain ⟨hpointer, hrule⟩ := h t l _ op hcall rfl
        split at hx
        · cases op with
          | rpcEnqueue msg =>
              cases hx
              exact hrule
          | rpcDequeue =>
              obtain ⟨msg, -, rfl⟩ := Option.map_eq_some_iff.mp hx
              exact hrule
          | eventTx msg => exact hpointer.elim
          | eventRx => exact hpointer.elim
        · cases hx
      · cases hx
  | _ => cases hx

/-- **Every transfer of a run follows the rule.** -/
theorem transfers_follow [Fintype τ] (h : (ruledLts variant lender rule).Run Net.initial acts n) :
    ∀ x ∈ transfers variant .initial acts, Follows lender rule x := by
  induction h with
  | nil => exact fun x hx => absurd hx List.not_mem_nil
  | @snoc m m' acts act hrun hs ih =>
      have hruled := ruled_calls (Lts.Reachable.run (.init rfl) hrun)
      intro x hx
      rw [transfers_snoc hrun.of_restrict hs.2, List.mem_append] at hx
      rcases hx with hx | hx
      · exact ih x hx
      · exact hruled.follows hs.1 (Option.mem_toList.mp hx)

end Ruled

/-! ### The parties -/

/-- The `vso_driver_rpc_t` of each party after `vso_driver_rpc_init` on one iobuf. -/
def wired (iobuf : RpcmsgIobuf) (drvrpc : VsoRpcId → VsoDriverRpc) (id : VsoRpcId) : VsoDriverRpc :=
  (vsoDriverRpcInit id iobuf (drvrpc id)).2.1

/-- The pointers are to queue `l` of the iobuf. -/
def Points (q : Option RpcmsgRpcQueue) (l : RpcmsgQueueId) : Prop :=
  q.map RpcmsgRpcQueue.queue = some l

instance (q : Option RpcmsgRpcQueue) (l : RpcmsgQueueId) : Decidable (Points q l) :=
  inferInstanceAs (Decidable (_ = _))

/-- The operations of a party, and their queues. -/
def Uses (rpc : VsoRpcId → VsoDriverRpc) (l : RpcmsgQueueId) : VsoRpcId → Op → Prop
  -- `driver_rpc_request`
  | .driver, .rpcEnqueue _ => Points (rpc .driver).request l
  -- `for_each_driver_rpc_resp`
  | .driver, .rpcDequeue => Points (rpc .driver).response l
  -- `driver_rpc_request_fwd` to the user part, or `driver_rpc_reply`
  | .deviceKm, .rpcEnqueue _ =>
      Points (rpc .device).request l ∨ Points (rpc .deviceKm).response l
  -- `for_each_driver_rpc_req`
  | .deviceKm, .rpcDequeue => Points (rpc .deviceKm).request l
  | .device, .rpcEnqueue _ => Points (rpc .device).response l
  | .device, .rpcDequeue => Points (rpc .device).request l
  | _, _ => False

/-- The network of the parties: `role` says whose thread it is.  The buffer state is the driver's,
so only its threads lend and reclaim. -/
def callLts {τ : Type} [DecidableEq τ] (variant : τ → CasVariant) (role : τ → VsoRpcId)
    (iobuf : RpcmsgIobuf) (drvrpc : VsoRpcId → VsoDriverRpc) :
    Lts (Net RpcmsgQueueId τ) (NetAct RpcmsgQueueId τ) :=
  ruledLts variant (fun t => role t = .driver)
    fun t l op => Uses (wired iobuf drvrpc) l (role t) op

section Parties

variable {τ : Type}

abbrev CallTransfer (τ : Type) := Transfer RpcmsgQueueId τ (Fin rpcmsgBufferSize)

def VsoRpcId.isDevice : VsoRpcId → Bool
  | .driver => false
  | .deviceKm => true
  | .device => true

/-- Everywhere but with the driver. -/
def away (role : τ → VsoRpcId) : Exchange.Place RpcmsgQueueId τ → Bool
  | .link _ => true
  | .holder t => (role t).isDevice

/-- With a device part, or between the two. -/
def atDevice (role : τ → VsoRpcId) : Exchange.Place RpcmsgQueueId τ → Bool
  | .link l => l = .drvrpcReqDev
  | .holder t => (role t).isDevice

/-- The messages that were sent to a queue, in order. -/
def sent (xs : List (CallTransfer τ)) (l : RpcmsgQueueId) : List (Fin rpcmsgBufferSize) :=
  xs.filterMap (Transfer.sends l)

/-- The messages that were received from a queue, in order. -/
def received (xs : List (CallTransfer τ)) (l : RpcmsgQueueId) : List (Fin rpcmsgBufferSize) :=
  xs.filterMap (Transfer.receives l)

/-- What holds of the requests and responses of a message, after the transfers `xs`. -/
structure Answered (role : τ → VsoRpcId) (xs : List (CallTransfer τ))
    (d : Depot RpcmsgQueueId τ (Fin rpcmsgBufferSize)) (id : Fin rpcmsgBufferSize) : Prop where
  /-- a message is away from the driver when its last request has no response yet -/
  open_call : d.Inside (away role) id →
    (sent xs .drvrpcReq).count id = (received xs .drvrpcResp).count id + 1
  closed_call : ¬ d.Inside (away role) id →
    (sent xs .drvrpcReq).count id = (received xs .drvrpcResp).count id
  /-- a device has it when it received the request and has not replied -/
  open_reply : d.Inside (atDevice role) id →
    (received xs .drvrpcReq).count id = (sent xs .drvrpcResp).count id + 1
  closed_reply : ¬ d.Inside (atDevice role) id →
    (received xs .drvrpcReq).count id = (sent xs .drvrpcResp).count id

variable {role : τ → VsoRpcId} {iobuf : RpcmsgIobuf} {drvrpc : VsoRpcId → VsoDriverRpc}
  {x : CallTransfer τ}

/-- Where a party sends to. -/
theorem uses_enqueue {l : RpcmsgQueueId} {p : VsoRpcId} {msg : Fin rpcmsgBufferSize}
    (h : Uses (wired iobuf drvrpc) l p (.rpcEnqueue msg)) :
    (p.isDevice = false ∧ l = .drvrpcReq) ∨
      (p.isDevice = true ∧ (l = .drvrpcReqDev ∨ l = .drvrpcResp)) := by
  cases p with
  | driver =>
      cases h
      exact Or.inl ⟨rfl, rfl⟩
  | deviceKm =>
      rcases h with h | h
      · cases h
        exact Or.inr ⟨rfl, Or.inl rfl⟩
      · cases h
        exact Or.inr ⟨rfl, Or.inr rfl⟩
  | device =>
      cases h
      exact Or.inr ⟨rfl, Or.inr rfl⟩

/-- Where a party receives from. -/
theorem uses_dequeue {l : RpcmsgQueueId} {p : VsoRpcId}
    (h : Uses (wired iobuf drvrpc) l p .rpcDequeue) :
    (p.isDevice = false ∧ l = .drvrpcResp) ∨
      (p.isDevice = true ∧ (l = .drvrpcReq ∨ l = .drvrpcReqDev)) := by
  cases p with
  | driver =>
      cases h
      exact Or.inl ⟨rfl, rfl⟩
  | deviceKm =>
      cases h
      exact Or.inr ⟨rfl, Or.inl rfl⟩
  | device =>
      cases h
      exact Or.inr ⟨rfl, Or.inr rfl⟩

/-- **What crosses the borders.**  Requests and responses leave and reach the driver; a device gets
requests from the request queue and gives replies to the response queue. -/
theorem crossings_iff (id : Fin rpcmsgBufferSize)
    (hx : Follows (fun t => role t = .driver)
      (fun t l op => Uses (wired iobuf drvrpc) l (role t) op) x) :
    (x.enters (away role) id = true ↔ x.sends .drvrpcReq = some id) ∧
      (x.leaves (away role) id = true ↔ x.receives .drvrpcResp = some id) ∧
      (x.enters (atDevice role) id = true ↔ x.receives .drvrpcReq = some id) ∧
      (x.leaves (atDevice role) id = true ↔ x.sends .drvrpcResp = some id) := by
  simp only [Transfer.enters_iff, Transfer.leaves_iff]
  cases x with
  | issue t msg =>
      have hp : (role t).isDevice = false := congrArg VsoRpcId.isDevice hx
      simp [Transfer.source, Transfer.target, Transfer.sends, Transfer.receives, away, atDevice, hp]
  | retire t msg =>
      have hp : (role t).isDevice = false := congrArg VsoRpcId.isDevice hx
      simp [Transfer.source, Transfer.target, Transfer.sends, Transfer.receives, away, atDevice, hp]
  | send t l msg =>
      rcases uses_enqueue hx with ⟨hp, rfl⟩ | ⟨hp, rfl | rfl⟩ <;>
        simp [Transfer.source, Transfer.target, Transfer.sends, Transfer.receives, Transfer.thing,
          away, atDevice, hp]
  | receive t l msg =>
      rcases uses_dequeue hx with ⟨hp, rfl⟩ | ⟨hp, rfl | rfl⟩ <;>
        simp [Transfer.source, Transfer.target, Transfer.sends, Transfer.receives, Transfer.thing,
          away, atDevice, hp]

/-- What the record of a run says of requests and responses. -/
structure CallsHold (role : τ → VsoRpcId) (xs : List (CallTransfer τ)) (n : Net RpcmsgQueueId τ) :
    Prop where
  answered : ∀ id, Answered role xs n.depot id
  /-- a message that is not lent has no request without its response -/
  settled : ∀ id, ¬ Lent n.state id →
    (sent xs .drvrpcReq).count id = (received xs .drvrpcResp).count id
  in_order : ∀ l, sent xs l = received xs l ++ (n.hist l).queued

variable [DecidableEq τ] [Fintype τ] {variant : τ → CasVariant} {n : Net RpcmsgQueueId τ}
  {acts : List (NetAct RpcmsgQueueId τ)}

/-- **Every call is answered once at most, and only calls are answered.**  Whatever the number of
threads of each party, the build of each and the order of their accesses, in the runs of `netLts`: a
message that was sent as a request comes back as a response before it is sent again. -/
theorem calls_answered (h : (callLts variant role iobuf drvrpc).Run Net.initial acts n) :
    CallsHold role (transfers variant .initial acts) n := by
  have hrun := exchange_run h.of_restrict
  have hfollow := transfers_follow h
  have hlent := (netInv_of_reachable (Lts.Reachable.run (.init rfl) h.of_restrict)).lent
  have hcount : ∀ (f : CallTransfer τ → Option (Fin rpcmsgBufferSize)) (p : CallTransfer τ → Bool)
      (id : Fin rpcmsgBufferSize),
      (∀ x ∈ transfers variant .initial acts, (p x = true ↔ f x = some id)) →
      ((transfers variant .initial acts).filterMap f).count id
        = (transfers variant .initial acts).countP p := by
    intro f p id hiff
    rw [List.count_filterMap]
    refine List.countP_congr fun x hx => ?_
    rw [hiff x hx, beq_iff_eq]
  have hanswered : ∀ id, Answered role (transfers variant .initial acts) n.depot id := by
    intro id
    have hcross := fun x hx => crossings_iff id (hfollow x hx)
    have hcall := hcount _ _ id fun x hx => (hcross x hx).1
    have hanswer := hcount _ _ id fun x hx => (hcross x hx).2.1
    have htake := hcount _ _ id fun x hx => (hcross x hx).2.2.1
    have hreply := hcount _ _ id fun x hx => (hcross x hx).2.2.2
    obtain ⟨haway, hhome⟩ := Exchange.crossings_eq hrun (away role) id
    obtain ⟨hat, hnot⟩ := Exchange.crossings_eq hrun (atDevice role) id
    rw [← hcall, ← hanswer] at haway hhome
    rw [← htake, ← hreply] at hat hnot
    exact ⟨haway, hhome, hat, hnot⟩
  refine ⟨hanswered, fun id hid => (hanswered id).closed_call ?_,
    fun l => Exchange.sent_eq hrun l⟩
  rintro ⟨P, -, hP⟩
  exact hid ((hlent id).mpr ⟨P, hP⟩)

end Parties

/-! ### A call to the kernel part -/

/-- The driver (`false`) requests, the kernel part (`true`) replies, and the driver receives the
response and reclaims its message. -/
def callScript (id : Fin rpcmsgBufferSize) : List (NetAct RpcmsgQueueId Bool) :=
  [.scan false, .mark false, .write false id mr1 5#64, .enqueue false .drvrpcReq id] ++
    List.replicate 8 (.access false) ++ .leave false :: .dequeue true .drvrpcReq ::
    List.replicate 8 (.access true) ++ .leave true :: .enqueue true .drvrpcResp id ::
    List.replicate 8 (.access true) ++ .leave true :: .dequeue false .drvrpcResp ::
    List.replicate 8 (.access false) ++ [.leave false, .reclaim false id]

def twoRoles (kernel : Bool) : VsoRpcId := if kernel then .deviceKm else .driver

/-- A `vso_driver_rpc_t` before its initialisation. -/
def unwired (_ : VsoRpcId) : VsoDriverRpc := ⟨none, none, ⟨rpcmsgBufferStateInit, rfl⟩⟩

instance (rpc : VsoRpcId → VsoDriverRpc) (l : RpcmsgQueueId) :
    (p : VsoRpcId) → (op : Op) → Decidable (Uses rpc l p op)
  | .driver, .rpcEnqueue _ => inferInstanceAs (Decidable (Points _ _))
  | .driver, .rpcDequeue => inferInstanceAs (Decidable (Points _ _))
  | .deviceKm, .rpcEnqueue _ => inferInstanceAs (Decidable (Points _ _ ∨ Points _ _))
  | .deviceKm, .rpcDequeue => inferInstanceAs (Decidable (Points _ _))
  | .device, .rpcEnqueue _ => inferInstanceAs (Decidable (Points _ _))
  | .device, .rpcDequeue => inferInstanceAs (Decidable (Points _ _))
  | .driver, .eventTx _ | .deviceKm, .eventTx _ | .device, .eventTx _ => .isFalse id
  | .driver, .eventRx | .deviceKm, .eventRx | .device, .eventRx => .isFalse id

instance {κ τ : Type} (lender : τ → Prop) [DecidablePred lender] (rule : τ → κ → Op → Prop)
    [∀ t l op, Decidable (rule t l op)] : (act : NetAct κ τ) → Decidable (act.Obeys lender rule)
  | .scan t => inferInstanceAs (Decidable (lender t))
  | .mark t => inferInstanceAs (Decidable (lender t))
  | .reclaim t _ => inferInstanceAs (Decidable (lender t))
  | .enqueue t l msg => inferInstanceAs (Decidable (rule t l (.rpcEnqueue msg)))
  | .dequeue t l => inferInstanceAs (Decidable (rule t l .rpcDequeue))
  | .write _ _ _ _ | .access _ | .leave _ => .isTrue trivial

/-- The steps of the two, wired on a fresh iobuf. -/
def wiredStep :
    Net RpcmsgQueueId Bool → NetAct RpcmsgQueueId Bool → Option (Net RpcmsgQueueId Bool) :=
  guarded (fun n act => act.Obeys (fun t => twoRoles t = .driver)
      (fun t l op => Uses (wired Channel.initial.iobuf unwired) l (twoRoles t) op) ∧
    NetFresh n act ∧ NetClear n act) (netStep fun _ => .user)

/-- `calls_answered` for the script. -/
theorem calls_answered_once : ∃ n : Net RpcmsgQueueId Bool,
    CallsHold twoRoles (transfers (fun _ => .user) .initial (callScript 0)) n ∧
      sent (transfers (fun _ => .user) .initial (callScript 0)) .drvrpcReq = [0] := by
  obtain ⟨n, hn⟩ := Option.isSome_iff_exists.mp
    (by decide +kernel : (runAll wiredStep .initial (callScript 0)).isSome = true)
  have hrun : (callLts (fun _ => .user) twoRoles Channel.initial.iobuf unwired).Run
      Net.initial (callScript 0) n := by
    refine .of_runAll (fun n act n' hs => ?_) hn
    obtain ⟨⟨hobeys, hfresh⟩, hstep⟩ := guarded_step hs
    exact ⟨hobeys, hfresh, hstep⟩
  exact ⟨n, calls_answered hrun, by decide +kernel⟩

end TiiSel4Vm.RpcQueue
