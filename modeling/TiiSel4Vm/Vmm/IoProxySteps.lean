import TiiSel4Vm.Vmm.IoProxyInvariant

/-!
# The steps of I/O requests keep the invariant

One lemma for every kind of step, from the state that the step makes.

* `ProxyInv.advance`, `.start`, `.mark`, `.write`, `.enqueue` — a requester;
* `ProxyInv.receive`, `.answer` — the device;
* `ProxyInv.receiveResponse`, `.check`, `.call`, `.clear`, `.reclaim` — the notification thread.
-/

namespace TiiSel4Vm.IoProxy

open TiiSel4Vm.Transition TiiSel4Vm.Ownership TiiSel4Vm.RpcQueue

/-! ### The steps of a requester -/

section Requesters

variable {w : Proxy} {held : Spot → List (Fin rpcmsgBufferSize)} {msg : Fin rpcmsgBufferSize}
  {slot : Slot} {t : Requester} {a : Ioack}

theorem setIoack_self (w : Proxy) (slot : Slot) : w.setIoack slot (w.ioacks slot) = w := by
  rw [Proxy.setIoack, Function.update_eq_self]

@[simp] theorem setRequester_self (w : Proxy) (slot : Slot) (t : Requester) :
    (w.setRequester slot t).requester slot = t :=
  Function.update_self _ _ _

@[simp] theorem setRequester_of_ne (w : Proxy) {slot s : Slot} (h : s ≠ slot) (t : Requester) :
    (w.setRequester slot t).requester s = w.requester s :=
  Function.update_of_ne h _ _

/-- A property of the requesters after one of them changed. -/
theorem forall_setRequester {p : Slot → Requester → Prop} (ht : p slot t)
    (h : ∀ s ≠ slot, p s (w.requester s)) : ∀ s, p s ((w.setRequester slot t).requester s) :=
  (Function.forall_update_iff w.requester p).mpr ⟨ht, h⟩

theorem goto_live (w : Proxy) (slot : Slot) (pc : RequesterPc) :
    ∀ s, ((w.goto slot pc).requester s).live = (w.requester s).live :=
  forall_setRequester (p := fun s r => r.live = (w.requester s).live) rfl fun _ _ => rfl

theorem goto_args (w : Proxy) (slot : Slot) (pc : RequesterPc) :
    ∀ s, ((w.goto slot pc).requester s).args = (w.requester s).args :=
  forall_setRequester (p := fun s r => r.args = (w.requester s).args) rfl fun _ _ => rfl

theorem goto_of_ne (w : Proxy) (slot : Slot) (pc : RequesterPc) :
    ∀ s ≠ slot, (w.goto slot pc).requester s = w.requester s :=
  fun _ hs => setRequester_of_ne w hs _

/-- The record does not change when a requester keeps its live request. -/
theorem RecordInv.keep (h : RecordInv w) {w' : Proxy} (hstarted : w'.started = w.started)
    (hcompletions : w'.completions = w.completions)
    (hlive : ∀ slot, (w'.requester slot).live = (w.requester slot).live)
    (hargs : ∀ slot, (w'.requester slot).args = (w.requester slot).args)
    (hanswers : ∀ c ∈ w.completions, w'.answers c.serial = w.answers c.serial) :
    RecordInv w' where
  own slot k hk := by
    rw [hlive] at hk
    rw [hstarted, hcompletions, hargs]
    exact h.own slot k hk
  complete c hc := by
    rw [hcompletions] at hc
    rw [hstarted, hanswers c hc]
    exact h.complete c hc
  once := by
    rw [hcompletions]
    exact h.once
  pending n hn := by
    rw [hstarted] at hn
    rw [hcompletions]
    simp only [hlive]
    exact h.pending n hn

/-- **A requester goes on** with its message, if it has one, and writes its slot only for a live
request. -/
theorem ProxyInv.advance (h : ProxyInv w held) (hlive : t.live = (w.requester slot).live)
    (hargs : t.args = (w.requester slot).args)
    (hholds : t.pc.holds = (w.requester slot).pc.holds)
    (hrole : (w.requester slot).live ≠ none → SameRole (w.requester slot) t)
    (hok : SlotOk slot a t) (hquiet : t.live = none → a = w.ioacks slot) :
    ProxyInv ((w.setIoack slot a).setRequester slot t) held := by
  have hlives : ∀ s, (((w.setIoack slot a).setRequester slot t).requester s).live
      = (w.requester s).live :=
    forall_setRequester (p := fun s r => r.live = (w.requester s).live) hlive fun _ _ => rfl
  have hioack : ∀ s, (w.requester s).live = none →
      ((w.setIoack slot a).setRequester slot t).ioacks s = w.ioacks s := by
    intro s hs
    show Function.update w.ioacks slot a s = w.ioacks s
    by_cases hslot : s = slot
    · subst hslot
      rw [Function.update_self]
      exact hquiet (hlive.trans hs)
    · rw [Function.update_of_ne hslot]
  refine
    { lending := h.lending
      fits := ⟨h.fits.request, h.fits.response, h.fits.device, h.fits.pending, h.fits.spent, ?_⟩
      carry := h.carry.keep rfl rfl rfl ?_ hlives
      record := h.record.keep rfl rfl hlives ?_ fun _ _ => rfl
      slots := ?_
      quiet := fun s hs => ?_
      notifier := ?_ }
  · refine forall_setRequester (p := fun s r => held (.requester s) = r.pc.holds) ?_
      fun s _ => h.fits.requester s
    rw [hholds]
    exact h.fits.requester slot
  · exact forall_setRequester
      (p := fun s r => (w.requester s).live ≠ none → SameRole (w.requester s) r) hrole
      fun s _ _ => SameRole.refl _
  · exact forall_setRequester (p := fun s r => r.args = (w.requester s).args) hargs fun _ _ => rfl
  · intro s
    show SlotOk s (Function.update w.ioacks slot a s) (Function.update w.requester slot t s)
    by_cases hslot : s = slot
    · subst hslot
      rw [Function.update_self, Function.update_self]
      exact hok
    · rw [Function.update_of_ne hslot, Function.update_of_ne hslot]
      exact h.slots s
  · rw [hlives] at hs
    rw [hioack s hs]
    exact h.quiet s hs
  · refine ⟨fun msg s data hn => ?_, fun msg s hn => ?_, h.notifier.running⟩
    · rw [hlives]
      exact h.notifier.calling msg s data hn
    · have hc := h.notifier.clearing msg s hn
      rw [hlives, hioack s hc.1]
      exact hc

/-- A requester goes on and leaves its slot alone. -/
theorem ProxyInv.proceed (h : ProxyInv w held) (hlive : t.live = (w.requester slot).live)
    (hargs : t.args = (w.requester slot).args)
    (hholds : t.pc.holds = (w.requester slot).pc.holds)
    (hrole : (w.requester slot).live ≠ none → SameRole (w.requester slot) t)
    (hok : SlotOk slot (w.ioacks slot) t) : ProxyInv (w.setRequester slot t) held := by
  have hadvance := h.advance hlive hargs hholds hrole hok fun _ => rfl
  rw [setIoack_self] at hadvance
  exact hadvance

/-- A requester starts a request. -/
theorem RecordInv.start (h : RecordInv w) (hidle : (w.requester slot).live = none) {r : IoReq}
    (hlive : t.live = some w.started.length) (hargs : t.args = r) :
    RecordInv { w.setRequester slot t with started := w.started ++ [(slot, r)] } := by
  have hlt : ∀ c ∈ w.completions, c.serial < w.started.length := by
    intro c hc
    obtain ⟨r', hr', _⟩ := h.complete c hc
    exact (List.getElem?_eq_some_iff.mp hr').1
  have hkeep : ∀ {n : ℕ} {x}, w.started[n]? = some x →
      (w.started ++ [(slot, r)])[n]? = some x := by
    intro n x hx
    rw [List.getElem?_append_left (List.getElem?_eq_some_iff.mp hx).1]
    exact hx
  refine ⟨?_, fun c hc => ?_, h.once, fun n hn => ?_⟩
  · refine forall_setRequester (p := fun s r' => ∀ k, r'.live = some k →
      (w.started ++ [(slot, r)])[k]? = some (s, r'.args) ∧ ∀ c ∈ w.completions, c.serial ≠ k)
      ?_ fun s _ k hk => ?_
    · intro k hk
      rw [hlive] at hk
      cases hk
      rw [List.getElem?_concat_length, hargs]
      exact ⟨rfl, fun c hc => (hlt c hc).ne⟩
    · obtain ⟨hs, hc⟩ := h.own s k hk
      exact ⟨hkeep hs, hc⟩
  · obtain ⟨r', hr', hrest⟩ := h.complete c hc
    exact ⟨r', hkeep hr', hrest⟩
  · rw [List.length_append, List.length_singleton] at hn
    by_cases hlast : n = w.started.length
    · subst hlast
      refine Or.inr ⟨slot, ?_⟩
      show ((w.setRequester slot t).requester slot).live = _
      rw [setRequester_self, hlive]
    · refine (h.pending n (by omega)).imp_right ?_
      rintro ⟨s, hs⟩
      have hslot : s ≠ slot := by
        rintro rfl
        rw [hidle] at hs
        cases hs
      refine ⟨s, ?_⟩
      show ((w.setRequester slot t).requester s).live = _
      rw [setRequester_of_ne w hslot]
      exact hs

/-- **A request starts** on a slot that is not still to be cleared. -/
theorem ProxyInv.start (h : ProxyInv w held) (hpc : (w.requester slot).pc = .idle)
    (hclears : w.notifier.clears ≠ some slot) {r : IoReq} (ht : t.pc = .checked)
    (hlive : t.live = some w.started.length) (hargs : t.args = r)
    (hsignal : t.signal = (w.requester slot).signal) :
    ProxyInv { w.setRequester slot t with started := w.started ++ [(slot, r)] } held := by
  have hslot := h.slots slot
  simp only [SlotOk, hpc] at hslot
  have hcallback : (w.ioacks slot).callback = none :=
    (h.quiet slot hslot.1).resolve_right hclears
  have hother : ∀ {s : Slot} {k : ℕ}, (w.requester s).live = some k → s ≠ slot := by
    rintro s k hk rfl
    rw [hslot.1] at hk
    cases hk
  have hfits := h.fits.requester slot
  rw [hpc] at hfits
  refine
    { lending := h.lending
      fits := ⟨h.fits.request, h.fits.response, h.fits.device, h.fits.pending, h.fits.spent, ?_⟩
      carry := ⟨fun P msg hmsg => ?_, h.carry.distinct, ?_⟩
      record := h.record.start hslot.1 hlive hargs
      slots := ?_
      quiet := ?_
      notifier := ⟨fun msg s data hn => ?_, fun msg s hn => ?_, h.notifier.running⟩ }
  · refine forall_setRequester (p := fun s r => held (.requester s) = r.pc.holds) ?_
      fun s _ => h.fits.requester s
    rw [ht]
    exact hfits
  · refine (h.carry.message P msg hmsg).frame rfl rfl rfl fun s hs => ?_
    show SameRole _ ((w.setRequester slot t).requester s)
    rw [setRequester_of_ne w (hother hs)]
    exact SameRole.refl _
  · refine forall_setRequester (p := fun s r => ∀ k, r.live = some k → r.pc.Preparing ∨
      ∃ P msg, P ≠ .spent ∧ msg ∈ held P ∧ w.carries msg = k) (fun k _ => ?_)
      fun s _ => h.carry.located s
    rw [ht]
    exact Or.inl trivial
  · refine forall_setRequester (p := fun s r => SlotOk s (w.ioacks s) r) ?_ fun s _ => h.slots s
    simp only [SlotOk, ht, hlive, hsignal]
    exact ⟨Option.some_ne_none _, hslot.2, hcallback⟩
  · refine forall_setRequester (p := fun s r => r.live = none →
      (w.ioacks s).callback = none ∨ w.notifier.clears = some s) (fun hn => ?_) fun s _ => h.quiet s
    rw [hlive] at hn
    cases hn
  · have hcall := h.notifier.calling msg s data hn
    show ((w.setRequester slot t).requester s).live = _ ∧ _
    rw [setRequester_of_ne w (hother hcall.1)]
    exact hcall
  · show ((w.setRequester slot t).requester s).live = none ∧ _
    have hne : s ≠ slot := by
      rintro rfl
      have hn' : w.notifier = .clearing msg s := hn
      exact hclears (by rw [hn']; rfl)
    rw [setRequester_of_ne w hne]
    exact h.notifier.clearing msg s hn

/-- The message a requester has is for its live request. -/
theorem ProxyInv.own_message (h : ProxyInv w held)
    (hpc : (w.requester slot).pc = .writing msg ∨ (w.requester slot).pc = .enqueuing msg) :
    msg ∈ held (.requester slot) ∧ (w.requester slot).live = some (w.carries msg) := by
  have hmem : msg ∈ held (.requester slot) := by
    rw [h.fits.requester]
    rcases hpc with hpc | hpc
    · rw [hpc]
      exact List.mem_singleton_self msg
    · rw [hpc]
      exact List.mem_singleton_self msg
  exact ⟨hmem, (h.carry.message _ msg hmem).1⟩

/-- **A requester lends a free message.** -/
theorem ProxyInv.mark (h : ProxyInv w held) (hpc : (w.requester slot).pc = .marking msg)
    (hclear : ¬ Lent w.state msg) :
    ProxyInv { w.goto slot (.writing msg) with
                state := setBit msg w.state
                carries := Function.update w.carries msg ((w.requester slot).live.getD 0) }
      (take held (.requester slot) msg) := by
  have hslot := h.slots slot
  simp only [SlotOk, hpc] at hslot
  obtain ⟨k, hk⟩ := Option.ne_none_iff_exists'.mp hslot.1
  have hfree : ∀ R, msg ∉ held R := fun R hR => hclear ((h.lending.lent_iff msg).mpr ⟨R, hR⟩)
  have hprep : (w.requester slot).pc.Preparing := by
    rw [hpc]
    trivial
  have hnone : ∀ R u, R ≠ .spent → u ∈ held R → w.carries u ≠ k := fun R u hR hu =>
    h.carry.not_carried h.record h.fits hk hprep hR hu
  have hlives := goto_live w slot (.writing msg)
  have hargs := goto_args w slot (.writing msg)
  have hold := goto_of_ne w slot (.writing msg)
  refine
    { lending := h.lending.mark hclear
      fits := h.fits.take ?_ fun R hR hfits => ?_
      carry := ?_
      record := h.record.keep rfl rfl hlives hargs fun _ _ => rfl
      slots := ?_
      quiet := fun s hs => h.quiet s ((hlives s).symm.trans hs)
      notifier := h.notifier.keep rfl hlives rfl fun u s data hn => ⟨?_, rfl⟩ }
  · show held (.requester slot) ++ [msg] = ((w.goto slot (.writing msg)).requester slot).pc.holds
    rw [h.fits.requester, hpc, Proxy.goto, setRequester_self]
    rfl
  · cases R with
    | requester s =>
        show held (.requester s) = ((w.goto slot (.writing msg)).requester s).pc.holds
        rw [hold s (by simpa using hR)]
        exact hfits
    | _ => exact hfits
  · refine h.carry.mark hfree hk hnone (by rw [hk, Option.getD_some]) (fun R u hne hu => ?_) ?_
      fun s k' hs => ?_
    · by_cases hR : R = .spent
      · subst hR
        trivial
      refine (h.carry.message R u hu).frame (Function.update_of_ne hne _ _) rfl rfl fun s hs => ?_
      have hs' : s ≠ slot := by
        rintro rfl
        rw [hk] at hs
        exact hnone R u hR hu (Option.some.inj hs).symm
      show SameRole _ ((w.goto slot (.writing msg)).requester s)
      rw [hold s hs']
      exact SameRole.refl _
    · refine ⟨?_, fun he => ?_⟩
      · show ((w.goto slot (.writing msg)).requester slot).live
          = some (Function.update w.carries msg ((w.requester slot).live.getD 0) msg)
        rw [hlives, Function.update_self, hk, Option.getD_some]
      · have he' : ((w.goto slot (.writing msg)).requester slot).pc = .enqueuing msg := he
        rw [Proxy.goto, setRequester_self] at he'
        cases he'
    · refine ⟨(hlives s).symm.trans hs, fun hne hp => ?_⟩
      show ((w.goto slot (.writing msg)).requester s).pc.Preparing
      rw [hold s hne]
      exact hp
  · refine forall_setRequester (p := fun s r => SlotOk s (w.ioacks s) r) ?_ fun s _ => h.slots s
    exact hslot
  · refine Function.update_of_ne ?_ _ _
    rintro rfl
    exact hfree .notifier (h.fits.mem_of_calling hn)

/-- **A requester writes its message.** -/
theorem ProxyInv.write (h : ProxyInv w held) (hpc : (w.requester slot).pc = .writing msg) :
    ProxyInv { w.goto slot (.enqueuing msg) with
                buffer := Function.update w.buffer msg ((w.requester slot).args.words slot) }
      held := by
  have hslot := h.slots slot
  simp only [SlotOk, hpc] at hslot
  obtain ⟨hmem, hk⟩ := h.own_message (Or.inl hpc)
  have hlives := goto_live w slot (.enqueuing msg)
  have hargs := goto_args w slot (.enqueuing msg)
  have hold := goto_of_ne w slot (.enqueuing msg)
  refine
    { lending := h.lending
      fits := ⟨h.fits.request, h.fits.response, h.fits.device, h.fits.pending, h.fits.spent, ?_⟩
      carry := ⟨fun R u hu => ?_, h.carry.distinct, fun s k hs => ?_⟩
      record := h.record.keep rfl rfl hlives hargs fun _ _ => rfl
      slots := ?_
      quiet := fun s hs => h.quiet s ((hlives s).symm.trans hs)
      notifier := h.notifier.keep rfl hlives rfl fun _ _ _ _ => ⟨rfl, rfl⟩ }
  · refine forall_setRequester (p := fun s r => held (.requester s) = r.pc.holds) ?_
      fun s _ => h.fits.requester s
    rw [h.fits.requester, hpc]
    rfl
  · by_cases hne : u = msg
    · subst hne
      have hR : R = .requester slot := h.lending.exclusive.owner R _ u hu hmem
      subst hR
      refine ⟨(hlives slot).trans hk, fun _ => ?_⟩
      show Function.update w.buffer u ((w.requester slot).args.words slot) u mr0
        = ((w.goto slot (.enqueuing u)).requester slot).args.mr0 slot
      rw [Function.update_self, hargs]
      rfl
    · exact h.carry.message_other hmem (by simp) hk hu hne rfl (Function.update_of_ne hne _ _)
        (fun _ _ => rfl) hold
  · rw [hlives] at hs
    by_cases hs' : s = slot
    · subst hs'
      rw [hk] at hs
      exact Or.inr ⟨_, msg, by simp, hmem, Option.some.inj hs⟩
    · show ((w.goto slot (.enqueuing msg)).requester s).pc.Preparing ∨ _
      rw [hold s hs']
      exact h.carry.located s k hs
  · refine forall_setRequester (p := fun s r => SlotOk s (w.ioacks s) r) ?_ fun s _ => h.slots s
    exact hslot

/-- **A requester sends its message.** -/
theorem ProxyInv.enqueue (h : ProxyInv w held) (hpc : (w.requester slot).pc = .enqueuing msg)
    {q : Queue} {k : ℕ} (hq : Represents q k (held .request ++ [msg])) :
    ProxyInv { w.goto slot .ringing with request := q }
      (move held (.requester slot) .request msg) := by
  have hslot := h.slots slot
  simp only [SlotOk, hpc] at hslot
  obtain ⟨hmem, hk⟩ := h.own_message (Or.inr hpc)
  have hlives := goto_live w slot .ringing
  have hargs := goto_args w slot .ringing
  have hold := goto_of_ne w slot .ringing
  refine
    { lending := h.lending.pass hmem
      fits := h.fits.move (by simp) ?_ ⟨k, hq⟩ fun R hP hQ hfits => ?_
      carry := h.carry.move h.lending.exclusive hmem (by simp) (by simp) rfl (fun R u hne hu => ?_)
        ⟨slot, (hlives slot).trans hk, ?_, ?_⟩ fun s n hs => ?_
      record := h.record.keep rfl rfl hlives hargs fun _ _ => rfl
      slots := ?_
      quiet := fun s hs => h.quiet s ((hlives s).symm.trans hs)
      notifier := h.notifier.keep rfl hlives rfl fun _ _ _ _ => ⟨rfl, rfl⟩ }
  · show (held (.requester slot)).erase msg = ((w.goto slot .ringing).requester slot).pc.holds
    rw [h.fits.requester, hpc, Proxy.goto, setRequester_self]
    exact List.erase_cons_head _ _
  · cases R with
    | requester s =>
        show held (.requester s) = ((w.goto slot .ringing).requester s).pc.holds
        rw [hold s (by simpa using hP)]
        exact hfits
    | request => exact absurd rfl hQ
    | _ => exact hfits
  · exact h.carry.message_other hmem (by simp) hk hu hne rfl rfl (fun _ _ => rfl) hold
  · show ((w.goto slot .ringing).requester slot).pc.Sent
    rw [Proxy.goto, setRequester_self]
    trivial
  · show w.buffer msg mr0 = ((w.goto slot .ringing).requester slot).args.mr0 slot
    rw [hargs]
    exact (h.carry.message _ msg hmem).2 hpc
  · rw [hlives] at hs
    refine ⟨hs, fun hprep => ?_⟩
    by_cases hs' : s = slot
    · subst hs'
      rw [hpc] at hprep
      exact hprep.elim
    · show ((w.goto slot .ringing).requester s).pc.Preparing
      rw [hold s hs']
      exact hprep
  · refine forall_setRequester (p := fun s r => SlotOk s (w.ioacks s) r) ?_ fun s _ => h.slots s
    exact Or.inl hslot

end Requesters

/-! ### The steps of the device and of the notification thread -/

section Others

variable {w : Proxy} {held : Spot → List (Fin rpcmsgBufferSize)} {msg : Fin rpcmsgBufferSize}
  {slot : Slot} {q : Queue} {k : ℕ} {rest : List (Fin rpcmsgBufferSize)}

/-- What is true of a message with a requester that has sent it. -/
theorem ProxyInv.sent_slot (h : ProxyInv w held) (hsent : SentFor w msg) :
    ∃ slot, (w.requester slot).live = some (w.carries msg) ∧ (w.requester slot).pc.Sent ∧
      w.buffer msg mr0 = (w.requester slot).args.mr0 slot ∧
      Armed slot (w.ioacks slot) (w.requester slot) ∧ (w.requester slot).signal = 0 := by
  obtain ⟨slot, hlive, hpc, hmr0⟩ := hsent
  have hne : (w.requester slot).live ≠ none := by
    rw [hlive]
    exact Option.some_ne_none _
  obtain ⟨hsignal, harmed⟩ := (h.slots slot).armed_of_sent hpc hne
  exact ⟨slot, hlive, hpc, hmr0, harmed, hsignal⟩

/-- **The device receives a request.** -/
theorem ProxyInv.receive (h : ProxyInv w held) (hreq : held .request = msg :: rest)
    (hq : Represents q k rest) :
    ProxyInv { w with request := q, device := w.device ++ [msg] }
      (move held .request .device msg) := by
  have hmem : msg ∈ held .request := by
    rw [hreq]
    exact List.mem_cons_self
  refine
    { lending := h.lending.pass hmem
      fits := h.fits.move (by simp) ⟨k, ?_⟩ ?_ fun R hP hQ hfits => ?_
      carry := h.carry.move h.lending.exclusive hmem (by simp) (by simp) rfl (fun R u _ hu => ?_)
        (h.carry.message _ msg hmem) fun s n hs => ⟨hs, id⟩
      record := ⟨h.record.own, h.record.complete, h.record.once, h.record.pending⟩
      slots := h.slots
      quiet := h.quiet
      notifier := ⟨h.notifier.calling, h.notifier.clearing, h.notifier.running⟩ }
  · rw [hreq, List.erase_cons_head]
    exact hq
  · show w.device ++ [msg] = held .device ++ [msg]
    rw [h.fits.device]
  · cases R with
    | request => exact absurd rfl hP
    | device => exact absurd rfl hQ
    | _ => exact hfits
  · exact (h.carry.message R u hu).frame rfl rfl rfl fun s _ => SameRole.refl _

/-- **The device answers a request.** -/
theorem ProxyInv.answer (h : ProxyInv w held) (hmem : msg ∈ held .device)
    (hq : Represents q k (held .response ++ [msg])) (data : Word) :
    ProxyInv { w with
                response := q
                buffer := Function.update w.buffer msg (Function.update (w.buffer msg) mr2 data)
                device := w.device.erase msg
                answers := Function.update w.answers (w.carries msg) (some data) }
      (move held .device .response msg) := by
  obtain ⟨slot, hlive, hpc, hmr0, _⟩ := h.sent_slot (h.carry.message _ msg hmem)
  have hfresh : ∀ c ∈ w.completions, c.serial ≠ w.carries msg := (h.record.own slot _ hlive).2
  refine
    { lending := h.lending.pass hmem
      fits := h.fits.move (by simp) ?_ ⟨k, hq⟩ fun R hP hQ hfits => ?_
      carry := h.carry.move h.lending.exclusive hmem (by simp) (by simp) rfl (fun R u hne hu => ?_)
        ⟨⟨slot, hlive, hpc, ?_⟩, ?_⟩ fun s n hs => ⟨hs, id⟩
      record := h.record.keep rfl rfl (fun _ => rfl) (fun _ => rfl) fun c hc =>
        Function.update_of_ne (hfresh c hc) _ _
      slots := h.slots
      quiet := h.quiet
      notifier := h.notifier.keep rfl (fun _ => rfl) rfl fun u s data' hn => ⟨rfl, ?_⟩ }
  · show w.device.erase msg = (held .device).erase msg
    rw [h.fits.device]
  · cases R with
    | device => exact absurd rfl hP
    | response => exact absurd rfl hQ
    | _ => exact hfits
  · exact h.carry.message_other hmem (by simp) hlive hu hne rfl (Function.update_of_ne hne _ _)
      (fun n hn => Function.update_of_ne hn _ _) fun _ _ => rfl
  · show Function.update w.buffer msg (Function.update (w.buffer msg) mr2 data) msg mr0 = _
    rw [Function.update_self, Function.update_of_ne (by decide)]
    exact hmr0
  · show Function.update w.answers (w.carries msg) (some data) (w.carries msg)
      = some (Function.update w.buffer msg (Function.update (w.buffer msg) mr2 data) msg mr2)
    rw [Function.update_self, Function.update_self, Function.update_self]
  · have hu : u ∈ held .notifier := h.fits.mem_of_calling hn
    refine Function.update_of_ne (fun he => ?_) _ _
    have hum : u = msg := h.carry.distinct _ _ u msg (by simp) (by simp) hu hmem he
    subst hum
    exact absurd (h.lending.exclusive.owner _ _ u hu hmem) (by simp)

/-- **The notification thread receives a response.** -/
theorem ProxyInv.receiveResponse (h : ProxyInv w held) (hn : w.notifier = .idle)
    (hresp : held .response = msg :: rest) (hq : Represents q k rest) :
    ProxyInv { w with response := q, notifier := .checking msg }
      (move held .response .notifier msg) := by
  have hmem : msg ∈ held .response := by
    rw [hresp]
    exact List.mem_cons_self
  have hpending := h.fits.pending
  have hspent := h.fits.spent
  rw [hn] at hpending hspent
  refine
    { lending := h.lending.pass hmem
      fits := h.fits.move (by simp) ⟨k, ?_⟩ ?_ fun R hP hQ hfits => ?_
      carry := h.carry.move h.lending.exclusive hmem (by simp) (by simp) rfl (fun R u _ hu => ?_)
        (h.carry.message _ msg hmem) fun s n hs => ⟨hs, id⟩
      record := ⟨h.record.own, h.record.complete, h.record.once, h.record.pending⟩
      slots := h.slots
      quiet := fun s hs => Or.inl ((h.quiet s hs).resolve_right ?_)
      notifier := notifierOk_of_other (by simp) (by simp) (by simp) }
  · rw [hresp, List.erase_cons_head]
    exact hq
  · rw [hpending]
    rfl
  · cases R with
    | response => exact absurd rfl hP
    | notifier => exact absurd rfl hQ
    | spent => exact hspent
    | _ => exact hfits
  · exact (h.carry.message R u hu).frame rfl rfl rfl fun s _ => SameRole.refl _
  · rw [hn]
    intro he
    cases he

/-- The slot that `handle_mmio` decodes. -/
theorem slot_mr0 (r : IoReq) (slot : Slot) :
    bitFieldGet (r.mr0 slot) rpcMr0MmioSlot = BitVec.ofNat 64 slot := by
  have hlt : (slot : ℕ) < 32 := slot.isLt
  apply slot_mmioMr0
  rw [BitVec.toNat_ofNat]
  omega

/-- `handle_mmio` finds the slot of the message's requester, with its callback. -/
theorem ProxyInv.handleMmio (h : ProxyInv w held) (hmem : msg ∈ held .notifier) :
    ∃ slot, IoProxy.handleMmio w msg = .calling msg slot (w.buffer msg mr2) ∧
      (w.requester slot).live = some (w.carries msg) := by
  obtain ⟨slot, hlive, _, hmr0, harmed, _⟩ := h.sent_slot (h.carry.message _ msg hmem).1
  have hlt : (slot : ℕ) < 32 := slot.isLt
  have hval : (BitVec.ofNat 64 (slot : ℕ)).toNat = slot := by
    rw [BitVec.toNat_ofNat]
    omega
  refine ⟨slot, ?_, hlive⟩
  have hop : qemuOp ((w.requester slot).args.mr0 slot) = qemuOpMmio := op_mmioMr0 _ _ _ _
  simp only [IoProxy.handleMmio, hmr0, hop, slot_mr0, hval, ne_eq, not_true_eq_false, if_false,
    slot.isLt, slot.isLt.le, dif_pos, Fin.eta, harmed.1, reduceCtorEq]

/-- **The assertions of `ioreq_finish` hold.** -/
theorem ProxyInv.check (h : ProxyInv w held) (hn : w.notifier = .checking msg) :
    ProxyInv { w with notifier := IoProxy.handleMmio w msg } held := by
  have hpending := h.fits.pending
  have hspent := h.fits.spent
  rw [hn] at hpending hspent
  have hmem : msg ∈ held .notifier := by
    rw [hpending]
    exact List.mem_singleton_self msg
  obtain ⟨slot, hcheck, hlive⟩ := h.handleMmio hmem
  rw [hcheck]
  refine
    { lending := h.lending
      fits := ⟨h.fits.request, h.fits.response, h.fits.device, hpending, hspent,
        h.fits.requester⟩
      carry := h.carry.keep rfl rfl rfl (fun _ _ => SameRole.refl _) fun _ => rfl
      record := ⟨h.record.own, h.record.complete, h.record.once, h.record.pending⟩
      slots := h.slots
      quiet := fun s hs => Or.inl ((h.quiet s hs).resolve_right ?_)
      notifier := ⟨fun u s data hc => ?_, by simp, by simp⟩ }
  · rw [hn]
    intro he
    cases he
  · cases hc
    exact ⟨hlive, (h.carry.message _ msg hmem).2⟩

/-- The callback of a live request runs. -/
theorem RecordInv.call (h : RecordInv w) {n : ℕ} {t : Requester} {fn : IoackFn} {data : Word}
    (hlive : (w.requester slot).live = some n) (ht : t.live = none)
    (hfn : fn = ioackFor slot (w.requester slot).args.direction)
    (hanswer : w.answers n = some data) :
    RecordInv { w.setRequester slot t with
                completions := w.completions ++ [⟨n, fn, slot, data⟩] } := by
  obtain ⟨hstarted, hfresh⟩ := h.own slot n hlive
  refine ⟨?_, fun c hc => ?_, ?_, fun m hm => ?_⟩
  · refine forall_setRequester (p := fun s r => ∀ k, r.live = some k →
      w.started[k]? = some (s, r.args) ∧
        ∀ c ∈ w.completions ++ [⟨n, fn, slot, data⟩], c.serial ≠ k) (fun k hk => ?_)
      fun s hs k hk => ⟨(h.own s k hk).1, fun c hc => ?_⟩
    · rw [ht] at hk
      cases hk
    · rcases List.mem_append.mp hc with hc | hc
      · exact (h.own s k hk).2 c hc
      · rw [List.mem_singleton.mp hc]
        rintro rfl
        exact hs (h.slot_inj hk hlive)
  · rcases List.mem_append.mp hc with hc | hc
    · exact h.complete c hc
    · rw [List.mem_singleton.mp hc]
      exact ⟨_, hstarted, hfn, hanswer⟩
  · show ((w.completions ++ [(⟨n, fn, slot, data⟩ : Completion)]).map Completion.serial).Nodup
    rw [List.map_append, List.map_singleton]
    refine List.nodup_append.mpr ⟨h.once, List.nodup_singleton _, fun a ha b hb => ?_⟩
    obtain ⟨c, hc, rfl⟩ := List.mem_map.mp ha
    rw [List.mem_singleton.mp hb]
    exact hfresh c hc
  · show (∃ c ∈ w.completions ++ [(⟨n, fn, slot, data⟩ : Completion)], c.serial = m) ∨ _
    rcases h.pending m hm with ⟨c, hc, he⟩ | ⟨s, hs⟩
    · exact Or.inl ⟨c, List.mem_append_left _ hc, he⟩
    · by_cases hslot : s = slot
      · subst hslot
        rw [hlive] at hs
        exact Or.inl ⟨_, List.mem_append_right _ (List.mem_singleton_self _), Option.some.inj hs⟩
      · refine Or.inr ⟨s, ?_⟩
        show ((w.setRequester slot t).requester s).live = some m
        rw [setRequester_of_ne w hslot]
        exact hs

/-- The callback and the cookie that `ioreq_finish` finds. -/
theorem ProxyInv.armed_of_calling (h : ProxyInv w held) {data : Word}
    (hn : w.notifier = .calling msg slot data) :
    (w.requester slot).pc.Sent ∧ Armed slot (w.ioacks slot) (w.requester slot) ∧
      (w.requester slot).signal = 0 := by
  have hmem : msg ∈ held .notifier := h.fits.mem_of_calling hn
  obtain ⟨s, hlive, hpc, _, harmed, hsignal⟩ := h.sent_slot (h.carry.message _ msg hmem).1
  have hslot : s = slot := h.record.slot_inj hlive (h.notifier.calling msg slot data hn).1
  subst hslot
  exact ⟨hpc, harmed, hsignal⟩

/-- **The callback runs.** -/
theorem ProxyInv.call (h : ProxyInv w held) {data : Word}
    (hn : w.notifier = .calling msg slot data) :
    ProxyInv { w.call msg (ioackFor slot (w.requester slot).args.direction) slot data with
                notifier := .clearing msg slot } (move held .notifier .spent msg) := by
  obtain ⟨hpc, harmed, hsignal⟩ := h.armed_of_calling hn
  obtain ⟨hlive, hanswer⟩ := h.notifier.calling msg slot data hn
  have hpending := h.fits.pending
  have hspent := h.fits.spent
  rw [hn] at hpending hspent
  have hmem : msg ∈ held .notifier := h.fits.mem_of_calling hn
  obtain ⟨t, ht⟩ : ∃ t : Requester, t =
      { w.requester slot with
        value := ((ioackFor slot (w.requester slot).args.direction).result
          (w.requester slot).args.offset data).getD (w.requester slot).value
        signal := (w.requester slot).signal + 1
        live := none } := ⟨_, rfl⟩
  have hcall : w.call msg (ioackFor slot (w.requester slot).args.direction) slot data
      = { w.setRequester slot t with completions := w.completions ++
            [⟨w.carries msg, ioackFor slot (w.requester slot).args.direction, slot, data⟩] } := by
    rw [ht]
    rfl
  have htlive : t.live = none := by rw [ht]
  have htpc : t.pc = (w.requester slot).pc := by rw [ht]
  have htsignal : t.signal = 1 := by
    rw [ht]
    show (w.requester slot).signal + 1 = 1
    rw [hsignal]
  rw [hcall]
  have hother : ∀ {s : Slot}, s ≠ slot → (w.setRequester slot t).requester s = w.requester s :=
    fun hs => setRequester_of_ne w hs t
  have hrecord := h.record.call hlive htlive rfl hanswer
  refine
    { lending := h.lending.pass hmem
      fits := h.fits.move (by simp) ?_ ?_ fun R hP hQ hfits => ?_
      carry := h.carry.spend h.lending.exclusive hmem rfl (fun R u hne hu => ?_) ?_
      record := ⟨hrecord.own, hrecord.complete, hrecord.once, hrecord.pending⟩
      slots := ?_
      quiet := ?_
      notifier := ⟨by simp, fun u s hc => ?_, by simp⟩ }
  · rw [hpending]
    exact List.erase_cons_head _ _
  · rw [hspent]
    rfl
  · cases R with
    | requester s =>
        refine forall_setRequester (p := fun s r => held (.requester s) = r.pc.holds) ?_
          (fun s _ => h.fits.requester s) s
        rw [htpc]
        exact h.fits.requester slot
    | notifier => exact absurd rfl hP
    | spent => exact absurd rfl hQ
    | _ => exact hfits
  · exact h.carry.message_other hmem (by simp) hlive hu hne rfl rfl (fun _ _ => rfl)
      fun s hs => hother hs
  · refine forall_setRequester (p := fun s r => ∀ k, r.live = some k → k ≠ w.carries msg ∧
      (w.requester s).live = some k ∧ ((w.requester s).pc.Preparing → r.pc.Preparing))
      (fun k hk => ?_) fun s hs k hk => ⟨?_, hk, id⟩
    · rw [htlive] at hk
      cases hk
    · rintro rfl
      exact hs (h.record.slot_inj hk hlive)
  · refine forall_setRequester (p := fun s r => SlotOk s (w.ioacks s) r) ?_ fun s _ => h.slots s
    have hwoken : t.live = none ∧ t.signal = 1 := ⟨htlive, htsignal⟩
    cases hp : (w.requester slot).pc <;> rw [hp] at hpc <;> first | exact hpc.elim | skip
    · simp only [SlotOk, htpc, hp]
      exact Or.inr hwoken
    · simp only [SlotOk, htpc, hp]
      exact Or.inr hwoken
  · refine forall_setRequester (p := fun s r => r.live = none →
      (w.ioacks s).callback = none ∨ (NotifierPc.clearing msg slot).clears = some s)
      (fun _ => Or.inr rfl) fun s _ hs => Or.inl ((h.quiet s hs).resolve_right ?_)
    rw [hn]
    intro he
    cases he
  · cases hc
    refine ⟨?_, ?_⟩
    · show ((w.setRequester slot t).requester slot).live = none
      rw [setRequester_self]
      exact htlive
    · show (w.ioacks slot).callback ≠ none
      rw [harmed.1]
      exact Option.some_ne_none _

/-- **The slot is cleared.** -/
theorem ProxyInv.clear (h : ProxyInv w held) (hn : w.notifier = .clearing msg slot) :
    ProxyInv { w.setIoack slot { w.ioacks slot with callback := none } with
                notifier := .reclaiming msg } held := by
  obtain ⟨hlive, _⟩ := h.notifier.clearing msg slot hn
  have hpending := h.fits.pending
  have hspent := h.fits.spent
  rw [hn] at hpending hspent
  refine
    { lending := h.lending
      fits := ⟨h.fits.request, h.fits.response, h.fits.device, hpending, hspent,
        h.fits.requester⟩
      carry := h.carry.keep rfl rfl rfl (fun _ _ => SameRole.refl _) fun _ => rfl
      record := ⟨h.record.own, h.record.complete, h.record.once, h.record.pending⟩
      slots := fun s => ?_
      quiet := fun s hs => Or.inl ?_
      notifier := notifierOk_of_other (by simp) (by simp) (by simp) }
  · show SlotOk s (Function.update w.ioacks slot _ s) (w.requester s)
    by_cases hs : s = slot
    · subst hs
      exact (h.slots s).of_live_none hlive
    · rw [Function.update_of_ne hs]
      exact h.slots s
  · show (Function.update w.ioacks slot _ s).callback = none
    by_cases hs' : s = slot
    · subst hs'
      rw [Function.update_self]
    · rw [Function.update_of_ne hs']
      refine (h.quiet s hs).resolve_right ?_
      rw [hn]
      exact fun he => hs' (Option.some.inj he).symm

/-- **The message is reclaimed.** -/
theorem ProxyInv.reclaim (h : ProxyInv w held) (hn : w.notifier = .reclaiming msg) :
    ProxyInv { w with state := rpcmsgReclaimBuffer w.state msg, notifier := .idle }
      (drop held .spent msg) := by
  have hpending := h.fits.pending
  have hspent := h.fits.spent
  rw [hn] at hpending hspent
  have hmem : msg ∈ held .spent := by
    rw [hspent]
    exact List.mem_singleton_self msg
  have hother : ∀ P ≠ .spent, drop held .spent msg P = held P := fun P hP =>
    Function.update_of_ne hP _ _
  refine
    { lending := h.lending.reclaim hmem
      fits := h.fits.drop ?_ fun R hR hfits => ?_
      carry := ⟨fun P u hu => ?_, fun P Q u u' hP hQ hu hu' => ?_, fun s k hs => ?_⟩
      record := ⟨h.record.own, h.record.complete, h.record.once, h.record.pending⟩
      slots := h.slots
      quiet := fun s hs => Or.inl ((h.quiet s hs).resolve_right ?_)
      notifier := notifierOk_of_other (by simp) (by simp) (by simp) }
  · rw [hspent]
    exact List.erase_cons_head _ _
  · cases R with
    | notifier => exact hpending
    | spent => exact absurd rfl hR
    | _ => exact hfits
  · exact (h.carry.message P u (mem_of_mem_drop hu)).frame rfl rfl rfl fun s _ => SameRole.refl _
  · exact h.carry.distinct P Q u u' hP hQ (mem_of_mem_drop hu) (mem_of_mem_drop hu')
  · refine (h.carry.located s k hs).imp_right ?_
    rintro ⟨P, u, hP, hu, hc⟩
    exact ⟨P, u, hP, by rwa [hother P hP], hc⟩
  · rw [hn]
    intro he
    cases he

end Others

end TiiSel4Vm.IoProxy
