import TiiSel4Vm.Queue.Predicates
import TiiSel4Vm.Rpc.Channel

/-!
# Pending requests

A device asks `driver_rpc_request_pending` whether there is something to receive.  The function
returns what `rpcmsg_queue_empty` returns.

* `PendingExact` — what the name says;
* `request_pending_inverted` — it is never so: the answer is the opposite one.
-/

namespace TiiSel4Vm.RpcQueue

open TiiSel4Vm.Transition

/-- `driver_rpc_request_pending`, for the request queue. -/
def driverRpcRequestPending (request : Queue) : ℤ := if rpcmsgQueueEmpty request then 1 else 0

/-- The answer is not 0 exactly when `rpcmsg_receive` would return a message, and 0 exactly when it
would return NULL. -/
def PendingExact (v : CasVariant) (request : Queue) (buf : RpcMsgBuffer) : Prop :=
  (driverRpcRequestPending request ≠ 0 ↔
      ∃ q' msg, rpcmsgReceive v request buf = some (q', some msg)) ∧
    (driverRpcRequestPending request = 0 ↔ ∃ q', rpcmsgReceive v request buf = some (q', none))

/-- The answer is 0 exactly when there is a message. -/
theorem Represents.pending_inverted {q : Queue} {c : ℕ} {xs : List (Fin rpcmsgBufferSize)}
    (h : Represents q c xs) (v : CasVariant) (buf : RpcMsgBuffer) :
    (driverRpcRequestPending q = 0 ↔ ∃ q' msg, rpcmsgReceive v q buf = some (q', some msg)) ∧
      (driverRpcRequestPending q ≠ 0 ↔ ∃ q', rpcmsgReceive v q buf = some (q', none)) := by
  cases xs with
  | nil =>
      have hempty := h.empty_iff.mpr rfl
      have hreceive := receive_empty v buf h
      simp [driverRpcRequestPending, hempty, hreceive]
  | cons msg xs =>
      have hempty : rpcmsgQueueEmpty q = false := by
        rw [← Bool.not_eq_true, h.empty_iff]
        exact List.cons_ne_nil msg xs
      obtain ⟨q', hreceive, -⟩ := receive_represents v buf h
      simp [driverRpcRequestPending, hempty, hreceive]

theorem Represents.not_pendingExact {q : Queue} {c : ℕ} {xs : List (Fin rpcmsgBufferSize)}
    (h : Represents q c xs) (v : CasVariant) (buf : RpcMsgBuffer) : ¬ PendingExact v q buf := by
  rintro ⟨hmessage, -⟩
  obtain ⟨hzero, -⟩ := h.pending_inverted v buf
  by_cases hp : driverRpcRequestPending q = 0
  · exact hmessage.mpr (hzero.mp hp) hp
  · exact hp (hzero.mpr (hmessage.mp hp))

/-- **Pending means empty.**  In no reachable state of a channel, and in no state without an
operation in progress that the threads of the request queue reach by any interleaving, is the answer
the right one. -/
theorem request_pending_inverted (v : CasVariant) :
    (∀ (variant : Party → CasVariant) (c : Channel), (channelLts variant).Reachable c →
        ¬ PendingExact v (c.queue .request) c.buffer) ∧
      ∀ (τ : Type) [Fintype τ] [DecidableEq τ] (variant : τ → CasVariant) (w : World τ),
        (worldLts variant).Reachable w → (∀ t s, ¬ (w.sys.pc t).InFlight s) →
          ∀ buf, ¬ PendingExact v w.sys.queue buf := by
  constructor
  · intro variant c hc
    obtain ⟨place, hi⟩ := channelInv_of_reachable hc
    obtain ⟨k, hrep⟩ := hi.fits.queue .request
    exact hrep.not_pendingExact v c.buffer
  · intro τ _ _ variant w hw hrest buf
    obtain ⟨xs, hrep⟩ := (inv_of_reachable hw).represents_of_rest hrest
    exact hrep.not_pendingExact v buf

/-- A channel that was never used says that a request is pending. -/
theorem pending_without_request :
    ¬ ∀ (variant : Party → CasVariant) (c : Channel), (channelLts variant).Reachable c →
      ∀ v, PendingExact v (c.queue .request) c.buffer := by
  intro h
  have hexact := h (fun _ => .user) .initial (.init rfl) .user
  have hpending : driverRpcRequestPending rpcmsgQueueInit ≠ 0 := by decide
  obtain ⟨q', msg, hreceive⟩ := hexact.1.mp hpending
  have hnull := receive_empty .user rpcmsgBufferInit represents_init
  rw [show rpcmsgReceive .user (Channel.initial.queue .request) Channel.initial.buffer
    = some (rpcmsgQueueInit, none) from hnull] at hreceive
  cases hreceive

/-- One request. -/
def oneRequest : List ChannelAct := [.request fun _ => 5#64]

/-- With a request queued the answer is wrong too. -/
theorem request_pending_inverted_request :
    ∃ c, c = play (channelStep fun _ => .user) .initial oneRequest ∧
      ¬ PendingExact .user (c.queue .request) c.buffer := by
  have hreach : (channelLts fun _ => .user).Reachable
      (play (channelStep fun _ => .user) .initial oneRequest) :=
    Lts.Reachable.play (fun _ _ _ hs => hs) (.init rfl) oneRequest
  exact ⟨_, rfl, (request_pending_inverted .user).1 (fun _ => .user) _ hreach⟩

end TiiSel4Vm.RpcQueue
