import TiiSel4Vm.Vmm.IoProxySteps

/-!
# Runs of I/O requests

* `ProxyInv.step` — the invariant of a run in which nobody starts on a slot that is still to be
  cleared and every lend gets a free message;
* `requests_complete` — in such a run no assertion fails and every callback runs once, with its own
  cookie and data;
* `woken_too_early` — a run of the code in which the assertion of `ioreq_start` fails.
-/

namespace TiiSel4Vm.IoProxy

open TiiSel4Vm.Transition TiiSel4Vm.Ownership TiiSel4Vm.RpcQueue

/-! ### Runs -/

section Steps

variable {v : CasVariant} {w w' : Proxy} {held : Spot → List (Fin rpcmsgBufferSize)} {slot : Slot}

theorem ProxyInv.startStep (h : ProxyInv w held) {r : IoReq}
    (hclears : w.notifier.clears ≠ some slot) (hs : IoProxy.startStep w slot r = some w') :
    ProxyInv w' held := by
  unfold IoProxy.startStep at hs
  split at hs
  · rename_i hpc
    have hslot := h.slots slot
    simp only [SlotOk, hpc] at hslot
    have hcallback := (h.quiet slot hslot.1).resolve_right hclears
    rw [if_pos hcallback] at hs
    cases hs
    exact h.start hpc hclears rfl rfl rfl rfl
  · cases hs

/-- **A step of a requester.** -/
theorem ProxyInv.requestStep (h : ProxyInv w held) (ho : Orderly w (.request slot))
    (hs : IoProxy.requestStep v w slot = some w') : ∃ held', ProxyInv w' held' := by
  have hslot := h.slots slot
  unfold IoProxy.requestStep at hs
  simp only at hs
  split at hs
  · rename_i hpc
    simp only [SlotOk, hpc] at hslot
    cases hs
    refine ⟨held, h.advance rfl rfl ?_ (fun _ => ⟨rfl, rfl, fun _ => trivial, ?_, ?_⟩)
      ⟨hslot.1, hslot.2.1, rfl⟩ fun hn => absurd hn hslot.1⟩
    · rw [hpc]
      rfl
    · rw [hpc]
      exact False.elim
    · intro msg he
      cases he
  · rename_i hpc
    simp only [SlotOk, hpc] at hslot
    cases hs
    refine ⟨held, h.advance rfl rfl ?_ (fun _ => ⟨rfl, rfl, fun _ => trivial, ?_, ?_⟩)
      ⟨hslot.1, hslot.2.1, hslot.2.2, rfl⟩ fun hn => absurd hn hslot.1⟩
    · rw [hpc]
      rfl
    · rw [hpc]
      exact False.elim
    · intro msg he
      cases he
  · rename_i hpc
    simp only [SlotOk, hpc] at hslot
    simp only [Orderly, hpc] at ho
    split at hs
    · rename_i hscan
      obtain ⟨msg, hmsg⟩ := ho
      exact absurd (lent_of_lendScan_none h.lending.covers hscan msg) hmsg
    · cases hs
      refine ⟨held, h.proceed rfl rfl ?_ (fun _ => ⟨rfl, rfl, fun _ => trivial, ?_, ?_⟩) hslot⟩
      · rw [hpc]
        rfl
      · rw [hpc]
        exact False.elim
      · intro msg he
        cases he
  · rename_i msg hpc
    simp only [Orderly, hpc] at ho
    cases hs
    exact ⟨_, h.mark hpc ho⟩
  · rename_i msg hpc
    cases hs
    exact ⟨_, h.write hpc⟩
  · rename_i msg hpc
    obtain ⟨hmem, _⟩ := h.own_message (Or.inr hpc)
    obtain ⟨k, hrep⟩ := h.fits.request
    have hnot : msg ∉ held .request := fun hm =>
      absurd (h.lending.exclusive.owner _ _ msg hm hmem) (by simp)
    obtain ⟨q, hq, hrep'⟩ := enqueue_represents v w.buffer msg hrep (h.lending.length_lt hnot)
    rw [hq] at hs
    cases hs
    exact ⟨_, h.enqueue hpc hrep'⟩
  · rename_i hpc
    simp only [SlotOk, hpc] at hslot
    cases hs
    refine ⟨held, h.proceed rfl rfl ?_ (fun _ => ⟨rfl, rfl, ?_, fun _ => trivial, ?_⟩) hslot⟩
    · rw [hpc]
      rfl
    · rw [hpc]
      exact False.elim
    · intro msg he
      cases he
  · rename_i hpc
    simp only [SlotOk, hpc] at hslot
    split at hs
    · rename_i hsignal
      -- a signal is there only after the callback has run
      obtain ⟨hlive, hone⟩ := hslot.resolve_left fun hl => hsignal.ne' hl.2.1
      cases hs
      refine ⟨held, h.proceed rfl rfl ?_ (fun hne => absurd hlive hne) ⟨hlive, ?_⟩⟩
      · rw [hpc]
        rfl
      · rw [hone]
    · cases hs
  · cases hs

theorem ProxyInv.receiveStep (h : ProxyInv w held) (hs : IoProxy.receiveStep v w = some w') :
    ∃ held', ProxyInv w' held' := by
  obtain ⟨r, hr, rfl⟩ := Option.map_eq_some_iff.mp hs
  obtain ⟨k, hrep⟩ := h.fits.request
  cases hreq : held .request with
  | nil =>
      rw [hreq] at hrep
      rw [receive_empty v w.buffer hrep] at hr
      cases hr
      exact ⟨held, h⟩
  | cons msg rest =>
      rw [hreq] at hrep
      obtain ⟨q, hq, hrep'⟩ := receive_represents v w.buffer hrep
      rw [hq] at hr
      cases hr
      exact ⟨_, h.receive hreq hrep'⟩

theorem ProxyInv.answerStep (h : ProxyInv w held) {msg : Fin rpcmsgBufferSize} {data : Word}
    (hs : IoProxy.answerStep v w msg data = some w') : ∃ held', ProxyInv w' held' := by
  unfold IoProxy.answerStep at hs
  split at hs
  · rename_i hmem
    rw [List.contains_iff_mem, h.fits.device] at hmem
    obtain ⟨k, hrep⟩ := h.fits.response
    have hnot : msg ∉ held .response := fun hm =>
      absurd (h.lending.exclusive.owner _ _ msg hm hmem) (by simp)
    obtain ⟨q, hq, hrep'⟩ := reply_represents v
      (Function.update w.buffer msg (Function.update (w.buffer msg) mr2 data)) msg hrep
      (h.lending.length_lt hnot)
    simp only [hq, Option.map_some, if_true] at hs
    cases hs
    exact ⟨_, h.answer hmem hrep' data⟩
  · cases hs

/-- **A step of the notification thread.** -/
theorem ProxyInv.notifyStep (h : ProxyInv w held) (hs : IoProxy.notifyStep v w = some w') :
    ∃ held', ProxyInv w' held' := by
  unfold IoProxy.notifyStep at hs
  split at hs
  · rename_i hn
    obtain ⟨r, hr, rfl⟩ := Option.map_eq_some_iff.mp hs
    obtain ⟨k, hrep⟩ := h.fits.response
    cases hresp : held .response with
    | nil =>
        rw [hresp] at hrep
        rw [receiveResponse_empty v w.buffer hrep] at hr
        cases hr
        exact ⟨held, h⟩
    | cons msg rest =>
        rw [hresp] at hrep
        obtain ⟨q, hq, hrep'⟩ := receiveResponse_represents v w.buffer hrep
        rw [hq] at hr
        cases hr
        exact ⟨_, h.receiveResponse hn hresp hrep'⟩
  · rename_i msg hn
    cases hs
    exact ⟨held, h.check hn⟩
  · rename_i msg slot data hn
    obtain ⟨_, ⟨hcallback, hcookie⟩, _⟩ := h.armed_of_calling hn
    rw [hcallback, hcookie] at hs
    cases hs
    exact ⟨_, h.call hn⟩
  · rename_i msg slot hn
    cases hs
    exact ⟨held, h.clear hn⟩
  · rename_i msg hn
    cases hs
    exact ⟨_, h.reclaim hn⟩
  · cases hs

/-- **The step lemma.** -/
theorem ProxyInv.step (h : ProxyInv w held) {act : ProxyAct}
    (hs : (orderlyLts v).step w act w') : ∃ held', ProxyInv w' held' := by
  obtain ⟨ho, hs⟩ := hs
  cases act with
  | start slot r => exact ⟨held, h.startStep ho hs⟩
  | request slot => exact h.requestStep ho hs
  | receive => exact h.receiveStep hs
  | answer msg data => exact h.answerStep hs
  | notify => exact h.notifyStep hs

theorem proxyInv_of_reachable (h : (orderlyLts v).Reachable w) : ∃ held, ProxyInv w held := by
  refine h.invariant (I := fun w => ∃ held, ProxyInv w held) (fun w hw => ?_)
    fun w act w' _ hi hs => ?_
  · cases hw
    exact ⟨_, proxyInv_initial⟩
  · obtain ⟨held, hp⟩ := hi
    exact hp.step hs

end Steps

/-! ### What holds in every reachable state -/

/-- The messages at a spot, as the code has them. -/
def Proxy.holds (w : Proxy) : Spot → List (BitVec 16)
  | .requester slot => (w.requester slot).pc.holds.map rpcmsgMsgToId
  | .request => w.request.contents
  | .device => w.device.map rpcmsgMsgToId
  | .response => w.response.contents
  | .notifier => w.notifier.pending.map rpcmsgMsgToId
  | .spent => w.notifier.spent.map rpcmsgMsgToId

theorem Fits.holds {w : Proxy} {held : Spot → List (Fin rpcmsgBufferSize)} (h : Fits w held)
    (P : Spot) : w.holds P = (held P).map rpcmsgMsgToId := by
  cases P with
  | requester slot =>
      rw [h.requester]
      rfl
  | request =>
      obtain ⟨k, hrep⟩ := h.request
      exact hrep.contents
  | device =>
      rw [← h.device]
      rfl
  | response =>
      obtain ⟨k, hrep⟩ := h.response
      exact hrep.contents
  | notifier =>
      rw [h.pending]
      rfl
  | spent =>
      rw [h.spent]
      rfl

/-- What a backend promises its requesters. -/
structure ProxyHolds (w : Proxy) : Prop where
  /-- no assertion of `ioreq_start` fails, no request is refused -/
  requesters : ∀ slot, (w.requester slot).pc ≠ .aborted ∧ (w.requester slot).pc ≠ .gaveUp
  /-- nor does one of `ioreq_finish` -/
  notifier : w.notifier ≠ .aborted ∧ w.notifier ≠ .astray
  /-- a callback that ran is the one of its request, with its cookie and the answer's data -/
  complete : ∀ c ∈ w.completions, ∃ r, w.started[c.serial]? = some (c.cookie, r) ∧
    c.callback = ioackFor c.cookie r.direction ∧ w.answers c.serial = some c.data
  once : (w.completions.map Completion.serial).Nodup
  /-- a request whose callback has not run is in preparation, or a message carries it -/
  pending : ∀ n slot r, w.started[n]? = some (slot, r) → (∃ c ∈ w.completions, c.serial = n) ∨
    (w.requester slot).live = some n ∧ ((w.requester slot).pc.Preparing ∨
      ∃ P msg, P ≠ .spent ∧ rpcmsgMsgToId msg ∈ w.holds P ∧ w.carries msg = n)
  /-- a requester that goes on has had its callbacks -/
  resumed : ∀ n slot r, w.started[n]? = some (slot, r) → (w.requester slot).pc = .idle →
    ∃ c ∈ w.completions, c.serial = n
  /-- `ioreq_start` fails its assertion exactly on a slot that is still to be cleared -/
  starts : ∀ slot r w', startStep w slot r = some w' →
    ((w'.requester slot).pc = .aborted ↔ w.notifier.clears = some slot)

/-- **Requests complete.**  While nobody starts a request on a slot whose callback has run and which
is still to be cleared, and every lend gets a free message, no assertion fails and every callback
runs once, with its own cookie and the data of its own response. -/
theorem requests_complete {v : CasVariant} {w : Proxy} (h : (orderlyLts v).Reachable w) :
    ProxyHolds w := by
  obtain ⟨held, hi⟩ := proxyInv_of_reachable h
  have hpending : ∀ n slot r, w.started[n]? = some (slot, r) →
      (∃ c ∈ w.completions, c.serial = n) ∨ (w.requester slot).live = some n := by
    intro n slot r hn
    refine (hi.record.pending n (List.getElem?_eq_some_iff.mp hn).1).imp_right ?_
    rintro ⟨s, hs⟩
    have hs' := (hi.record.own s n hs).1
    rw [hn] at hs'
    cases hs'
    exact hs
  refine
    { requesters := fun slot => ⟨fun hpc => ?_, fun hpc => ?_⟩, notifier := hi.notifier.running,
      complete := hi.record.complete, once := hi.record.once,
      pending := fun n slot r hn => ?_, resumed := fun n slot r hn hpc => ?_,
      starts := fun slot r w' hs => ?_ }
  · have hslot := hi.slots slot
    simp only [SlotOk, hpc] at hslot
  · have hslot := hi.slots slot
    simp only [SlotOk, hpc] at hslot
  · refine (hpending n slot r hn).imp_right fun hlive => ⟨hlive, ?_⟩
    refine (hi.carry.located slot n hlive).imp_right ?_
    rintro ⟨P, msg, hP, hmsg, hc⟩
    refine ⟨P, msg, hP, ?_, hc⟩
    rw [hi.fits.holds]
    exact List.mem_map_of_mem hmsg
  · have hslot := hi.slots slot
    simp only [SlotOk, hpc] at hslot
    refine (hpending n slot r hn).resolve_right fun hlive => ?_
    rw [hslot.1] at hlive
    cases hlive
  · unfold startStep at hs
    split at hs
    · rename_i hpc
      cases hs
      have hslot := hi.slots slot
      simp only [SlotOk, hpc] at hslot
      show ((w.setRequester slot _).requester slot).pc = .aborted ↔ _
      rw [setRequester_self]
      constructor
      · intro habort
        by_contra hclears
        simp [(hi.quiet slot hslot.1).resolve_right hclears] at habort
      · intro hclears
        have hcallback : (w.ioacks slot).callback ≠ none := by
          cases hn : w.notifier with
          | clearing msg s =>
              rw [hn] at hclears
              cases hclears
              exact (hi.notifier.clearing msg slot hn).2
          | _ => simp [hn, NotifierPc.clears] at hclears
        exact if_neg hcallback
    · cases hs

/-! ### Two runs -/

/-- The slot of the first native thread. -/
def firstNative : Slot := ⟨sel4MmioNativeBase, by decide⟩

/-- The first native thread sends a request; the device answers it. -/
def requestAndAnswer (msg : Fin rpcmsgBufferSize) (data : Word) : List ProxyAct :=
  .start firstNative .zero :: List.replicate 7 (.request firstNative) ++
    [.receive, .answer msg data]

/-- `requests_complete` when the thread reads twice: it has resumed after the second callback. -/
theorem requests_complete_twoReads :
    ∃ c ∈ (play (guarded Orderly (proxyStep .user)) .initial
      (requestAndAnswer 0 7#64 ++ List.replicate 5 .notify ++ [.request firstNative] ++
        requestAndAnswer 0 8#64 ++ List.replicate 5 .notify ++
        [.request firstNative])).completions, c.serial = 1 := by
  refine (requests_complete (Lts.Reachable.play (M := orderlyLts .user)
    (fun _ _ _ hs => guarded_step hs) (.init rfl) _)).resumed 1 firstNative .zero ?_ ?_
  · decide +kernel
  · decide +kernel

/-- **Woken too early.**  The callback wakes the first native thread, whose next request starts
before the slot is cleared: the assertion of `ioreq_start` fails. -/
theorem woken_too_early :
    ∃ w, (proxyLts .user).Reachable w ∧ (w.requester firstNative).pc = .aborted := by
  refine ⟨play (proxyStep .user) .initial (requestAndAnswer 0 7#64 ++ List.replicate 3 .notify ++
      [.request firstNative, .start firstNative .zero]),
    Lts.Reachable.play (fun _ _ _ hs => hs) (.init rfl) _, ?_⟩
  decide +kernel

end TiiSel4Vm.IoProxy
