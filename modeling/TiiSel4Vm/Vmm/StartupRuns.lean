import TiiSel4Vm.Queue.Predicates
import TiiSel4Vm.Vmm.Startup

/-!
# Runs of the startup

* `Threads` — who calls what on the queue;
* `Account` — each event taken is open with one receiver or done, once;
* `Flag` — why `ok_to_run` is set, and that a waiter it was set for wakes up;
* `Awake` — a message in the queue is announced or looked for;
* `start_follows` — the VM starts after a start message, and which events may still be open then;
* `start_not_lost` — when all threads have come to rest, every event is done, and a start message
  has started the VM.
-/

namespace TiiSel4Vm.Startup

open TiiSel4Vm.Transition TiiSel4Vm.RpcQueue TiiSel4Vm.Devices TiiSel4Vm.Doorbell

variable {τ : Type} [DecidableEq τ] {variant : Party τ → CasVariant}

/-! ### Steps on the queue -/

section Queue

variable {u v : World (Party τ)} {p : Party τ} {act : Act}

/-- A thread acquires positions for itself only. -/
theorem place_of_other (h : (worldLts variant).step u (p, act) v) {x : Party τ} (hx : x ≠ p) :
    v.hist.place x = u.hist.place x := by
  obtain ⟨_, s', e, _, rfl⟩ := h
  cases e with
  | acquired op => exact Function.update_of_ne hx _ _
  | _ => rfl

theorem extends_step (h : (worldLts variant).step u (p, act) v) : Extends u.hist v.hist := by
  obtain ⟨_, s', e, _, rfl⟩ := h
  exact extends_record u.hist p e

theorem opOf_worldStep (h : (worldLts variant).step u (p, act) v) {op : Op}
    (hop : opOf (v.sys.pc p) = some op) : opOf (u.sys.pc p) = some op ∨ act = .call op := by
  obtain ⟨_, s', e, hstep, rfl⟩ := h
  obtain ⟨q', buf', pc', rfl, hmove⟩ := sysStep_moves hstep
  simp only [Function.update_self] at hop
  exact opOf_step hmove hop

theorem leave_step (h : (worldLts variant).step u (p, .leave) v) :
    v.sys.pc p = .idle ∧ v.sys.queue = u.sys.queue ∧ v.hist = u.hist := by
  obtain ⟨_, s', e, hstep, rfl⟩ := h
  obtain ⟨q', buf', pc', rfl, hmove⟩ := sysStep_moves hstep
  generalize u.sys.pc p = pc at hmove
  cases hmove with
  | leave op ret out => exact ⟨Function.update_self .., rfl, rfl⟩

/-- A commit of the consumers is the end of a call. -/
theorem commits_cons_step [Fintype τ] (hi : Inv u) (h : (worldLts variant).step u (p, act) v) :
    v.hist.commits .cons = u.hist.commits .cons ∨
      ∃ op out, (u.sys.pc p).InFlight .cons ∧ v.sys.pc p = .returned op 0 out ∧
        v.hist.place p = u.hist.place p ∧
        v.hist.commits .cons = u.hist.commits .cons ++ [u.hist.place p] := by
  rcases step_kinds hi h with ⟨pc', hq⟩ | ⟨op, ot, -, rfl⟩ | ⟨op, out, oh, tl, hpc, -, -, rfl⟩
  · exact Or.inl (by rw [hq.quiet.commits])
  · exact Or.inl rfl
  · by_cases hs : op.side = .cons
    · refine Or.inr ⟨op, out, ?_, Function.update_self .., rfl, ?_⟩
      · rw [hpc]
        exact hs
      · show Function.update u.hist.commits op.side _ .cons = _
        rw [hs, Function.update_self]
    · exact Or.inl (Function.update_of_ne (Ne.symm hs) _ _)

/-- An entry is acquired for the operation the thread is in. -/
theorem acquirers_cons_step [Fintype τ] (hi : Inv u) (h : (worldLts variant).step u (p, act) v) :
    (v.hist.acquirers .cons = u.hist.acquirers .cons ∧ v.hist.place p = u.hist.place p) ∨
      ∃ op, opOf (u.sys.pc p) = some op ∧
        ((op.side = .prod ∧ v.hist.acquirers .cons = u.hist.acquirers .cons) ∨
          (op.side = .cons ∧ v.hist.acquirers .cons = u.hist.acquirers .cons ++ [(p, op)] ∧
            v.hist.place p = (u.hist.acquirers .cons).length)) := by
  rcases step_kinds hi h with ⟨pc', hq⟩ | ⟨op, ot, hpc, rfl⟩ | ⟨op, out, oh, tl, -, -, -, rfl⟩
  · exact Or.inl ⟨by rw [hq.quiet.acquirers], by rw [hq.quiet.place]⟩
  · refine Or.inr ⟨op, by rw [hpc]; rfl, ?_⟩
    cases hs : op.side with
    | prod =>
        refine Or.inl ⟨rfl, Function.update_of_ne ?_ _ _⟩
        rw [hs]
        exact nofun
    | cons =>
        refine Or.inr ⟨rfl, ?_, ?_⟩
        · show Function.update u.hist.acquirers op.side _ .cons = _
          rw [hs, Function.update_self]
        · show Function.update u.hist.place p _ p = _
          rw [Function.update_self, hs]
          rfl
  · exact Or.inl ⟨rfl, rfl⟩

end Queue

/-! ### The threads on the queue -/

/-- Senders enqueue events, receivers dequeue them in the loop over the events. -/
structure Threads (variant : Party τ → CasVariant) (w : State τ) : Prop where
  queue : (eventLts variant).Reachable w.events
  senders : ∀ t op, opOf (w.events.sys.pc (.inl t)) = some op → op.side = .prod
  receivers : ∀ r op, opOf (w.events.sys.pc (.inr r)) = some op → op = .eventRx
  resting : ∀ r, (∀ rc, w.phase r ≠ .draining rc) → w.events.sys.pc (.inr r) = .idle

section Threads

variable {w w' : State τ}

omit [DecidableEq τ] in
theorem State.goto_cases (w : State τ) (r : Receiver) (p : Phase) (x : Receiver) :
    (w.goto r p).phase x = w.phase x ∨ x = r := by
  by_cases hx : x = r
  · exact Or.inr hx
  · exact Or.inl (Function.update_of_ne hx _ _)

omit [DecidableEq τ] in
@[simp] theorem State.done_events (w : State τ) (r : Receiver) (l : Source) (msg : RpcMsg) :
    (w.done r l msg).events = w.events := by
  cases l <;> rfl

omit [DecidableEq τ] in
@[simp] theorem State.done_phase (w : State τ) (r : Receiver) (l : Source) (msg : RpcMsg) :
    (w.done r l msg).phase = w.phase := by
  cases l <;> rfl

theorem Threads.send (h : Threads variant w) {t : τ} {act : Act} {v : World (Party τ)}
    {pending : Bool} (hstep : (worldLts variant).step w.events (.inl t, act) v)
    (hact : Sends w t act pending) :
    Threads variant { w with events := v, pending := pending } := by
  have hother : ∀ r : Receiver, v.sys.pc (.inr r) = w.events.sys.pc (.inr r) :=
    fun r => pc_of_other hstep (by simp)
  have hevent : act.IsEvent := by
    cases act with
    | call op =>
        obtain ⟨msg, rfl⟩ := hact.call op rfl
        trivial
    | _ => trivial
  refine ⟨h.queue.step ⟨hevent, hstep⟩, ?_, ?_, ?_⟩
  · intro x op hop
    by_cases hx : x = t
    · subst hx
      rcases opOf_worldStep hstep hop with hold | hcall
      · exact h.senders x op hold
      · obtain ⟨msg, rfl⟩ := hact.call op hcall
        rfl
    · have hsame : v.sys.pc (.inl x) = w.events.sys.pc (.inl x) :=
        pc_of_other hstep fun he => hx (Sum.inl.inj he).symm
      exact h.senders x op (hsame ▸ hop)
  · intro r op hop
    exact h.receivers r op (hother r ▸ hop)
  · intro r hr
    show v.sys.pc (.inr r) = .idle
    rw [hother r]
    exact h.resting r hr

/-- A receiver's step on the queue, after which it is in `w'`. -/
theorem Threads.receive (h : Threads variant w) {r : Receiver} {act : Act}
    (hstep : (worldLts variant).step w.events (.inr r, act) w'.events)
    (hcall : ∀ op, act = .call op → op = .eventRx)
    (hothers : ∀ x, x ≠ r → w'.phase x = w.phase x)
    (hself : (∀ rc, w'.phase r ≠ .draining rc) → w'.events.sys.pc (.inr r) = .idle) :
    Threads variant w' := by
  have hevent : act.IsEvent := by
    cases act with
    | call op =>
        rw [hcall op rfl]
        trivial
    | _ => trivial
  have hpc : ∀ x, x ≠ r → w'.events.sys.pc (.inr x) = w.events.sys.pc (.inr x) :=
    fun x hx => pc_of_other hstep fun he => hx (Sum.inr.inj he).symm
  refine ⟨h.queue.step ⟨hevent, hstep⟩, ?_, ?_, ?_⟩
  · intro t op hop
    have hsame : w'.events.sys.pc (.inl t) = w.events.sys.pc (.inl t) :=
      pc_of_other hstep (by simp)
    exact h.senders t op (hsame ▸ hop)
  · intro x op hop
    by_cases hx : x = r
    · subst hx
      rcases opOf_worldStep hstep hop with hold | hcalled
      · exact h.receivers x op hold
      · exact hcall op hcalled
    · exact h.receivers x op (hpc x hx ▸ hop)
  · intro x hx
    by_cases hxr : x = r
    · subst hxr
      exact hself hx
    · rw [hpc x hxr]
      refine h.resting x ?_
      rw [← hothers x hxr]
      exact hx

/-- A step away from the queue: no thread in the loop over the events moves. -/
theorem Threads.away (h : Threads variant w) (he : w'.events = w.events)
    (hphase : ∀ x, w'.phase x = w.phase x ∨ ∀ rc, w.phase x ≠ .draining rc) :
    Threads variant w' := by
  refine ⟨?_, ?_, ?_, ?_⟩
  · rw [he]
    exact h.queue
  · rw [he]
    exact h.senders
  · rw [he]
    exact h.receivers
  · intro x hx
    rw [he]
    refine h.resting x ?_
    rcases hphase x with hsame | hnot
    · rw [← hsame]
      exact hx
    · exact hnot

theorem Threads.step (h : Threads variant w) (hs : StartMoves variant w w') :
    Threads variant w' := by
  have hgoto : ∀ (w₁ : State τ) (r : Receiver) (p : Phase), w₁.events = w.events →
      w₁.phase = w.phase → (∀ rc, w.phase r ≠ .draining rc) → Threads variant (w₁.goto r p) := by
    intro w₁ r p he hp hr
    refine h.away he fun x => ?_
    rcases w₁.goto_cases r p x with hsame | rfl
    · exact Or.inl (hsame.trans (congrFun hp x))
    · exact Or.inr hr
  cases hs with
  | send t act hstep hact => exact h.send hstep hact
  | drain r rc act hphase hstep hcall hact =>
      refine h.receive hstep hcall (fun _ _ => rfl) ?_
      intro hnot
      exact absurd hphase (hnot rc)
  | handle r rc op ret out hphase hpc hstep =>
      refine h.receive hstep nofun ?_ ?_
      · intro x hx
        exact Function.update_of_ne hx _ _
      · intro _
        exact (leave_step hstep).1
  | take hphase => exact hgoto _ _ _ rfl rfl (by simp [hphase])
  | register r hphase => exact hgoto _ _ _ rfl rfl (by simp [hphase])
  | response r msg hphase => exact hgoto _ _ _ rfl rfl (by simp [hphase])
  | responsesDone r hphase => exact hgoto _ _ _ rfl rfl (by simp [hphase])
  | process r l msg rc hphase hmsg =>
      exact hgoto _ _ _ (w.done_events r l msg) (w.done_phase r l msg) (by simp [hphase])
  | store r l msg hphase hmsg =>
      exact hgoto _ _ _ (w.done_events r l msg) (w.done_phase r l msg) (by simp [hphase])
  | post r l hphase => exact hgoto _ _ _ rfl rfl (by simp [hphase])
  | check hphase => exact h.away rfl fun _ => Or.inl rfl
  | wait hwaiter => exact h.away rfl fun _ => Or.inl rfl

end Threads

/-! ### The account of the events -/

/-- `rpcmsg_event_rx` has given the event at position `p` to `r`, and `rpc_process` is not done with
it. -/
def AtHand (w : State τ) (r : Receiver) (p : ℕ) : Prop :=
  w.events.hist.place (.inr r) = p ∧
    ((∃ op out, w.events.sys.pc (.inr r) = .returned op 0 out) ∨
      ∃ msg, w.phase r = .processing .event msg)

/-- **The account.** -/
structure Account (w : State τ) : Prop where
  taken : ∀ p ∈ w.events.hist.commits .cons, p ∈ w.handled.map Prod.fst ∨ ∃ r, AtHand w r p
  received : ∀ p msg, (p, msg) ∈ w.handled → (p, Out.copy msg) ∈ w.events.hist.received
  once : (w.handled.map Prod.fst).Nodup
  atHand : ∀ r p, AtHand w r p → p ∉ w.handled.map Prod.fst
  processing : ∀ r msg, w.phase r = .processing .event msg →
    (w.events.hist.place (.inr r), Out.copy msg) ∈ w.events.hist.received ∧
      (w.events.hist.acquirers .cons)[w.events.hist.place (.inr r)]? = some (.inr r, .eventRx)
  /-- a receiver holds the last position it acquired -/
  latest : ∀ (p : ℕ) a, (w.events.hist.acquirers .cons)[p]? = some a →
    ∃ r, a.1 = .inr r ∧ p ≤ w.events.hist.place (.inr r)

section Account

variable {w w' : State τ}

omit [DecidableEq τ] in
theorem account_initial : Account (State.initial : State τ) where
  taken _ h := absurd h List.not_mem_nil
  received _ _ h := absurd h List.not_mem_nil
  once := List.nodup_nil
  atHand _ _ _ := List.not_mem_nil
  processing r msg h := by cases r <;> cases h
  latest _ _ h := by cases h

omit [DecidableEq τ] in
/-- Every event that is done was consumed. -/
theorem Account.committed (h : Account w) (hp : PlacesInv w.events) {p : ℕ}
    (hm : p ∈ w.handled.map Prod.fst) : p ∈ w.events.hist.commits .cons := by
  obtain ⟨⟨q, msg⟩, hmem, rfl⟩ := List.mem_map.mp hm
  rw [← hp.received]
  exact List.mem_map.mpr ⟨_, h.received q msg hmem, rfl⟩

/-- An event at hand is at hand of the receiver that acquired it. -/
theorem Account.owner (h : Account w) (ht : Threads variant w) (hp : PlacesInv w.events)
    {r : Receiver} {p : ℕ} (hhand : AtHand w r p) :
    (w.events.hist.acquirers .cons)[p]? = some (.inr r, .eventRx) := by
  obtain ⟨rfl, ⟨op, out, hpc⟩ | ⟨msg, hphase⟩⟩ := hhand
  · have hop : op = .eventRx := ht.receivers r op (by rw [hpc]; rfl)
    have hacq := hp.acquirer (.inr r) op (by rw [hpc]; rfl)
    rw [hop] at hacq
    exact hacq
  · exact (h.processing r msg hphase).2

variable [Fintype τ]

theorem Threads.inv (ht : Threads variant w) : Inv w.events :=
  inv_of_reachable ht.queue.of_restrict

theorem Threads.places (ht : Threads variant w) : PlacesInv w.events :=
  placesInv_of_reachable ht.queue.of_restrict

omit [Fintype τ] in
/-- Only receivers are in flight on the side of the consumers. -/
theorem Threads.receiver_of_inFlight (ht : Threads variant w) {p : Party τ}
    (hfly : (w.events.sys.pc p).InFlight .cons) : ∃ r, p = .inr r := by
  cases p with
  | inr r => exact ⟨r, rfl⟩
  | inl t =>
      have hop : ∃ op, opOf (w.events.sys.pc (.inl t)) = some op ∧ op.side = .cons := by
        cases hpc : w.events.sys.pc (.inl t) with
        | body op entry b =>
            rw [hpc] at hfly
            exact ⟨op, rfl, hfly⟩
        | committing op out c =>
            rw [hpc] at hfly
            exact ⟨op, rfl, hfly⟩
        | _ =>
            rw [hpc] at hfly
            exact hfly.elim
      obtain ⟨op, hop, hside⟩ := hop
      have hprod := ht.senders t op hop
      rw [hside] at hprod
      cases hprod

/-- Whoever acquires an entry of the consumers is a receiver, and holds its last entry. -/
theorem Account.latest_step (h : Account w) (ht : Threads variant w) {p : Party τ} {act : Act}
    {v : World (Party τ)} (hstep : (worldLts variant).step w.events (p, act) v) {q : ℕ}
    {a : Party τ × Op} (hq : (v.hist.acquirers .cons)[q]? = some a) :
    ∃ r, a.1 = .inr r ∧ q ≤ v.hist.place (.inr r) := by
  have hold : (w.events.hist.acquirers .cons)[q]? = some a →
      (q ≤ w.events.hist.place p → q ≤ v.hist.place p) →
      ∃ r, a.1 = .inr r ∧ q ≤ v.hist.place (.inr r) := by
    intro hacq hgrows
    obtain ⟨r, hr, hle⟩ := h.latest q a hacq
    refine ⟨r, hr, ?_⟩
    by_cases hne : (.inr r : Party τ) = p
    · rw [hne] at hle ⊢
      exact hgrows hle
    · rw [place_of_other hstep hne]
      exact hle
  rcases acquirers_cons_step ht.inv hstep with
    ⟨hsame, hplace⟩ | ⟨op, hop, ⟨hside, hsame⟩ | ⟨hside, happend, hplace⟩⟩
  · exact hold (hsame ▸ hq) (fun hle => hplace ▸ hle)
  · obtain ⟨r, hr, hle⟩ := h.latest q a (hsame ▸ hq)
    refine ⟨r, hr, ?_⟩
    -- a receiver acquires no entry of the producers
    have hne : (.inr r : Party τ) ≠ p := by
      rintro rfl
      rw [ht.receivers r op hop] at hside
      cases hside
    rw [place_of_other hstep hne]
    exact hle
  · obtain ⟨r, rfl⟩ : ∃ r, p = .inr r := by
      cases p with
      | inr r => exact ⟨r, rfl⟩
      | inl t =>
          rw [ht.senders t op hop] at hside
          cases hside
    rw [happend] at hq
    rcases Nat.lt_or_ge q (w.events.hist.acquirers .cons).length with hlt | hge
    · rw [List.getElem?_append_left hlt] at hq
      refine hold hq fun _ => ?_
      omega
    · rw [List.getElem?_append_right hge] at hq
      obtain ⟨hzero, ha⟩ := List.getElem?_eq_some_iff.mp hq
      rw [List.getElem_singleton] at ha
      subst ha
      refine ⟨r, rfl, ?_⟩
      simp only [List.length_singleton] at hzero
      omega

/-- The party makes a step on the queue that ends no call of a receiver. -/
def Continues (w : State τ) (p : Party τ) (act : Act) : Prop :=
  ∀ r, p = .inr r → act ≠ .leave ∧ ∃ rc, w.phase r = .draining rc

omit [Fintype τ] in
/-- What is at hand stays at hand: its receiver makes no such step. -/
theorem AtHand.keep {p : Party τ} {act : Act} {v : World (Party τ)} {pending : Bool}
    (hstep : (worldLts variant).step w.events (p, act) v) (hact : Continues w p act)
    {r : Receiver} {q : ℕ} (hhand : AtHand w r q) :
    AtHand { w with events := v, pending := pending } r q := by
  have hne : (.inr r : Party τ) ≠ p := by
    rintro rfl
    obtain ⟨hleave, rc, hphase⟩ := hact r rfl
    rcases hhand.2 with ⟨op, out, hpc⟩ | ⟨msg, hproc⟩
    · obtain ⟨_, s', e, hsys, rfl⟩ := hstep
      obtain ⟨q', buf', pc', rfl, hmove⟩ := sysStep_moves hsys
      simp only [hpc] at hmove
      cases hmove
      exact hleave rfl
    · rw [hphase] at hproc
      cases hproc
  refine ⟨(place_of_other hstep hne).trans hhand.1, ?_⟩
  show (∃ op out, v.sys.pc (.inr r) = _) ∨ _
  rw [pc_of_other hstep (Ne.symm hne)]
  exact hhand.2

/-- What comes to hand was in flight. -/
theorem AtHand.old (ht : Threads variant w) {p : Party τ} {act : Act} {v : World (Party τ)}
    {pending : Bool} (hstep : (worldLts variant).step w.events (p, act) v)
    (hact : Continues w p act) {r : Receiver} {q : ℕ}
    (hhand : AtHand { w with events := v, pending := pending } r q) :
    AtHand w r q ∨
      (w.events.hist.place (.inr r) = q ∧ (w.events.sys.pc (.inr r)).InFlight .cons) := by
  obtain ⟨hplace, hpc⟩ := hhand
  by_cases hne : (.inr r : Party τ) = p
  · subst hne
    obtain ⟨-, rc, hphase⟩ := hact r rfl
    have hret : ∃ op out, v.sys.pc (.inr r) = .returned op 0 out := by
      refine hpc.resolve_right ?_
      rintro ⟨msg, hproc⟩
      rw [show w.phase r = _ from hproc] at hphase
      cases hphase
    obtain ⟨op, out, hpc⟩ := hret
    rcases step_kinds ht.inv hstep with ⟨pc', hq⟩ | ⟨o, ot, -, rfl⟩ | ⟨o, ou, oh, tl, hc, -, -, rfl⟩
    · rw [hq.quiet.pc, Function.update_self] at hpc
      exact absurd hpc (hq.running op out)
    · rw [show (w.events.afterAcquire (.inr r) o ot).sys.pc (.inr r) = .body o ot.pos o.body from
        Function.update_self ..] at hpc
      cases hpc
    · refine Or.inr ⟨hplace, ?_⟩
      have hop : o = .eventRx := ht.receivers r o (by rw [hc]; rfl)
      rw [hc, hop]
      rfl
  · refine Or.inl ⟨(place_of_other hstep hne).symm.trans hplace, ?_⟩
    rw [← pc_of_other hstep (Ne.symm hne)]
    exact hpc

theorem Account.onQueue (h : Account w) (ht : Threads variant w) {p : Party τ} {act : Act}
    {v : World (Party τ)} {pending : Bool}
    (hstep : (worldLts variant).step w.events (p, act) v) (hact : Continues w p act) :
    Account { w with events := v, pending := pending } := by
  have hext : Extends w.events.hist v.hist := extends_step hstep
  have hold : ∀ q ∈ w.events.hist.commits .cons, q ∈ w.handled.map Prod.fst ∨
      ∃ r, AtHand { w with events := v, pending := pending } r q :=
    fun q hq => (h.taken q hq).imp id fun ⟨r, hhand⟩ => ⟨r, hhand.keep hstep hact⟩
  refine ⟨?_, ?_, h.once, ?_, ?_, fun q a hq => h.latest_step ht hstep hq⟩
  · intro q hq
    rcases commits_cons_step ht.inv hstep with hsame | ⟨op, out, hfly, hpc, hplace, happend⟩
    · exact hold q (hsame ▸ hq)
    · rw [show ({ w with events := v, pending := pending } : State τ).events.hist.commits .cons = _
        from happend] at hq
      rcases List.mem_append.mp hq with hmem | hlast
      · exact hold q hmem
      · obtain rfl := List.mem_singleton.mp hlast
        obtain ⟨r, rfl⟩ := ht.receiver_of_inFlight hfly
        exact Or.inr ⟨r, hplace, Or.inl ⟨op, out, hpc⟩⟩
  · intro q msg hmem
    exact hext.received _ (h.received q msg hmem)
  · intro r q hhand
    rcases hhand.old ht hstep hact with hhand' | ⟨rfl, hfly⟩
    · exact h.atHand r q hhand'
    · exact fun hmem => ht.places.held .cons _ hfly (h.committed ht.places hmem)
  · intro r msg hphase
    have hne : (.inr r : Party τ) ≠ p := by
      rintro rfl
      obtain ⟨-, rc, hdrain⟩ := hact r rfl
      rw [show w.phase r = _ from hphase] at hdrain
      cases hdrain
    obtain ⟨hreceived, hacq⟩ := h.processing r msg hphase
    show (v.hist.place (.inr r), _) ∈ v.hist.received ∧ _
    rw [place_of_other hstep hne]
    exact ⟨hext.received _ hreceived, hext.acquirer hacq⟩

omit [DecidableEq τ] [Fintype τ] in
/-- Steps after which the same events are taken, at hand and done. -/
theorem Account.congr (h : Account w) (hhist : w'.events.hist = w.events.hist)
    (hhandled : w'.handled = w.handled) (hhand : ∀ r p, AtHand w' r p ↔ AtHand w r p)
    (hproc : ∀ r msg, w'.phase r = .processing .event msg →
      (w.events.hist.place (.inr r), Out.copy msg) ∈ w.events.hist.received ∧
        (w.events.hist.acquirers .cons)[w.events.hist.place (.inr r)]?
          = some (.inr r, .eventRx)) :
    Account w' := by
  refine ⟨?_, ?_, ?_, ?_, ?_, ?_⟩
  · intro p hp
    rw [hhist] at hp
    rw [hhandled]
    exact (h.taken p hp).imp id fun ⟨r, hr⟩ => ⟨r, (hhand r p).mpr hr⟩
  · rw [hhist, hhandled]
    exact h.received
  · rw [hhandled]
    exact h.once
  · intro r p hr
    rw [hhandled]
    exact h.atHand r p ((hhand r p).mp hr)
  · rw [hhist]
    exact hproc
  · rw [hhist]
    exact h.latest

/-- The end of a call: what the receiver has at hand is what the call gave it. -/
theorem Account.handle (h : Account w) (ht : Threads variant w) {r : Receiver} {rc ret : ℤ}
    {op : Op} {out : Out} (hphase : w.phase r = .draining rc)
    (hpc : w.events.sys.pc (.inr r) = .returned op ret out)
    (hstep : (worldLts variant).step w.events (.inr r, .leave) w'.events)
    (hhandled : w'.handled = w.handled) (hothers : ∀ x, x ≠ r → w'.phase x = w.phase x)
    (hself : w'.phase r = afterRx rc ret out) : Account w' := by
  obtain ⟨hidle, -, hhist⟩ := leave_step hstep
  have hop : op = .eventRx := ht.receivers r op (by rw [hpc]; rfl)
  subst hop
  -- what `r` took, if anything, and where it goes
  have hgot : ret = 0 → ∃ msg, out = .copy msg ∧
      (w.events.hist.place (.inr r), Out.copy msg) ∈ w.events.hist.received ∧
      (w.events.hist.acquirers .cons)[w.events.hist.place (.inr r)]? = some (.inr r, .eventRx) := by
    rintro rfl
    have hpay := payloadInv_of_reachable ht.queue
    have hown := hpay.payload (.inr r)
    simp only [PayloadHolds, hpc, true_implies] at hown
    obtain ⟨⟨msg, rfl, -⟩, -⟩ := hpay.delivered _ _ hown.1
    exact ⟨msg, rfl, hown⟩
  have hproc : ∀ msg, w'.phase r = .processing .event msg → ret = 0 ∧ out = .copy msg := by
    intro msg hr
    rw [hself] at hr
    unfold afterRx at hr
    by_cases hret : ret = 0
    · obtain ⟨msg', rfl, -⟩ := hgot hret
      rw [if_pos hret] at hr
      cases hr
      exact ⟨hret, rfl⟩
    · rw [if_neg hret] at hr
      split at hr
      · cases hr
      · cases hr
  refine h.congr hhist hhandled ?_ ?_
  · intro x q
    by_cases hx : x = r
    · subst hx
      constructor
      · rintro ⟨hplace, ⟨op', out', hret⟩ | ⟨msg, hr⟩⟩
        · rw [hidle] at hret
          cases hret
        · rw [(hproc msg hr).1] at hpc
          exact ⟨hhist ▸ hplace, Or.inl ⟨_, _, hpc⟩⟩
      · rintro ⟨hplace, ⟨op', out', hret⟩ | ⟨msg, hr⟩⟩
        · rw [hpc] at hret
          cases hret
          obtain ⟨msg, rfl, -⟩ := hgot rfl
          exact ⟨hhist ▸ hplace, Or.inr ⟨msg, hself⟩⟩
        · rw [hphase] at hr
          cases hr
    · have hne : (.inr x : Party τ) ≠ .inr r := fun he => hx (Sum.inr.inj he)
      unfold AtHand
      rw [hothers x hx, place_of_other hstep hne, pc_of_other hstep (Ne.symm hne)]
  · intro x msg hx
    by_cases hxr : x = r
    · subst hxr
      obtain ⟨hret, rfl⟩ := hproc msg hx
      obtain ⟨msg', he, hfacts⟩ := hgot hret
      cases he
      exact hfacts
    · rw [hothers x hxr] at hx
      exact h.processing x msg hx

omit [DecidableEq τ] [Fintype τ] in
/-- A step away from the queue and from the events at hand. -/
theorem Account.away (h : Account w) (he : w'.events = w.events)
    (hhandled : w'.handled = w.handled)
    (hphase : ∀ r msg, w'.phase r = .processing .event msg ↔ w.phase r = .processing .event msg) :
    Account w' := by
  refine h.congr (by rw [he]) hhandled ?_ ?_
  · intro r p
    unfold AtHand
    rw [he]
    simp only [hphase]
  · intro r msg hr
    exact h.processing r msg ((hphase r msg).mp hr)

/-- `rpc_process` is done with an event. -/
theorem Account.finish (h : Account w) (ht : Threads variant w) {r : Receiver} {msg : RpcMsg}
    (hphase : w.phase r = .processing .event msg) (he : w'.events = w.events)
    (hhandled : w'.handled = w.handled ++ [(w.events.hist.place (.inr r), msg)])
    (hothers : ∀ x, x ≠ r → w'.phase x = w.phase x)
    (hself : ∀ msg, w'.phase r ≠ .processing .event msg) : Account w' := by
  have hmine : AtHand w r (w.events.hist.place (.inr r)) := ⟨rfl, Or.inr ⟨msg, hphase⟩⟩
  have hother : ∀ x q, x ≠ r → (AtHand w' x q ↔ AtHand w x q) := by
    intro x q hx
    unfold AtHand
    rw [he, hothers x hx]
  have hnone : ∀ q, ¬ AtHand w' r q := by
    rintro q ⟨-, ⟨op, out, hpc⟩ | ⟨msg', hproc⟩⟩
    · rw [he, ht.resting r (by simp [hphase])] at hpc
      cases hpc
    · exact hself msg' hproc
  have hmem : ∀ q, q ∈ w'.handled.map Prod.fst ↔
      q ∈ w.handled.map Prod.fst ∨ q = w.events.hist.place (.inr r) := by
    intro q
    rw [hhandled, List.map_append, List.mem_append]
    simp
  refine ⟨?_, ?_, ?_, ?_, ?_, ?_⟩
  · intro q hq
    rw [he] at hq
    rw [hmem]
    rcases h.taken q hq with hdone | ⟨x, hhand⟩
    · exact Or.inl (Or.inl hdone)
    · by_cases hx : x = r
      · subst hx
        exact Or.inl (Or.inr hhand.1.symm)
      · exact Or.inr ⟨x, (hother x q hx).mpr hhand⟩
  · intro q m hq
    rw [hhandled, List.mem_append] at hq
    rw [he]
    rcases hq with hold | hlast
    · exact h.received q m hold
    · cases List.mem_singleton.mp hlast
      exact (h.processing r msg hphase).1
  · rw [hhandled, List.map_append]
    refine h.once.append (List.nodup_singleton _) ?_
    rw [List.map_singleton, List.disjoint_singleton]
    exact h.atHand r _ hmine
  · intro x q hhand
    have hx : x ≠ r := by
      rintro rfl
      exact hnone q hhand
    have hhand' := (hother x q hx).mp hhand
    rw [hmem, not_or]
    refine ⟨h.atHand x q hhand', ?_⟩
    -- two receivers hold two positions
    rintro rfl
    have hmine' := h.owner ht ht.places hmine
    rw [h.owner ht ht.places hhand'] at hmine'
    cases hmine'
    exact hx rfl
  · intro x m hx
    by_cases hxr : x = r
    · subst hxr
      exact absurd hx (hself m)
    · rw [hothers x hxr] at hx
      rw [he]
      exact h.processing x m hx
  · rw [he]
    exact h.latest

theorem next_ne_processing (l l' : Source) (rc : Option ℤ) (msg : RpcMsg) :
    next l rc ≠ .processing l' msg := by
  cases rc with
  | none => cases l <;> exact nofun
  | some rc => cases l <;> simp only [next] <;> split <;> exact nofun

theorem Account.step (h : Account w) (ht : Threads variant w) (hs : StartMoves variant w w') :
    Account w' := by
  have hgoto : ∀ (w₁ : State τ) (r : Receiver) (p : Phase), w₁.events = w.events →
      w₁.handled = w.handled → w₁.phase = w.phase →
      (∀ msg, w.phase r ≠ .processing .event msg) → (∀ msg, p ≠ .processing .event msg) →
      Account (w₁.goto r p) := by
    intro w₁ r p he hhandled hphase hold hnew
    refine h.away he hhandled fun x msg => ?_
    rcases w₁.goto_cases r p x with hsame | rfl
    · rw [hsame, hphase]
    · rw [State.goto_self]
      exact iff_of_false (hnew msg) (hold msg)
  have hothers : ∀ (w₁ : State τ) (r : Receiver) (p : Phase), w₁.phase = w.phase →
      ∀ x, x ≠ r → (w₁.goto r p).phase x = w.phase x := by
    intro w₁ r p hphase x hx
    rw [← hphase]
    exact Function.update_of_ne hx _ _
  cases hs with
  | send t act hstep hact => exact h.onQueue ht hstep nofun
  | drain r rc act hphase hstep hcall hact =>
      refine h.onQueue ht hstep ?_
      intro x hx
      cases hx
      exact ⟨hact, rc, hphase⟩
  | handle r rc op ret out hphase hpc hstep =>
      exact h.handle ht hphase hpc hstep rfl (hothers _ r _ rfl) (State.goto_self ..)
  | take hphase => exact hgoto _ _ _ rfl rfl rfl (by simp [hphase]) nofun
  | register r hphase => exact hgoto _ _ _ rfl rfl rfl (by simp [hphase]) nofun
  | response r msg hphase => exact hgoto _ _ _ rfl rfl rfl (by simp [hphase]) nofun
  | responsesDone r hphase => exact hgoto _ _ _ rfl rfl rfl (by simp [hphase]) nofun
  | process r l msg rc hphase hmsg =>
      cases l with
      | response =>
          exact hgoto _ _ _ rfl rfl rfl (by simp [hphase]) (next_ne_processing _ _ rc)
      | event =>
          refine h.finish ht hphase rfl rfl (hothers _ r _ rfl) ?_
          intro msg'
          rw [State.goto_self]
          exact next_ne_processing _ _ rc msg'
  | store r l msg hphase hmsg =>
      cases l with
      | response => exact hgoto _ _ _ rfl rfl rfl (by simp [hphase]) nofun
      | event =>
          refine h.finish ht hphase rfl rfl (hothers _ r _ rfl) ?_
          intro msg'
          rw [State.stored, State.goto_self]
          exact nofun
  | post r l hphase =>
      exact hgoto _ _ _ rfl rfl rfl (by simp [hphase]) (next_ne_processing _ _ _)
  | check hphase => exact h.away rfl rfl fun _ _ => Iff.rfl
  | wait hwaiter => exact h.away rfl rfl fun _ _ => Iff.rfl

end Account

/-! ### The flag and the semaphore -/

/-- `rpc_process` is done with the message, as a response or as an event. -/
def Came (w : State τ) (msg : RpcMsg) : Prop :=
  msg ∈ w.responses ∨ ∃ p, (p, msg) ∈ w.handled

/-- **The flag.** -/
structure Flag (w : State τ) : Prop where
  set_iff : w.okToRun = true ↔ ∃ msg, IsStart msg ∧ Came w msg
  booted : w.waiter ≠ .checking → w.phase .boot = .idle
  past : w.waiter = .past → w.okToRun = true
  /-- a waiter that sleeps though the flag is set will be woken up -/
  asleep : w.waiter = .waiting → w.okToRun = true →
    0 < w.backendStarted ∨ ∃ l, w.phase .ntfn = .posting l

section Flag

variable {w w' : State τ}

omit [DecidableEq τ] in
theorem flag_initial : Flag (State.initial : State τ) where
  set_iff := by
    refine iff_of_false nofun ?_
    rintro ⟨msg, -, hmem | ⟨p, hmem⟩⟩
    · cases hmem
    · cases hmem
  booted h := absurd rfl h
  past := nofun
  asleep := nofun

omit [DecidableEq τ] in
theorem came_done (w : State τ) (r : Receiver) (l : Source) (msg m : RpcMsg) :
    Came (w.done r l msg) m ↔ Came w m ∨ m = msg := by
  cases l with
  | response =>
      show m ∈ w.responses ++ [msg] ∨ _ ↔ _
      rw [List.mem_append, List.mem_singleton, or_right_comm]
      rfl
  | event =>
      show m ∈ w.responses ∨ (∃ p, (p, m) ∈ w.handled ++ [(_, msg)]) ↔ _
      simp only [List.mem_append, List.mem_singleton, Prod.mk.injEq, exists_or, exists_eq_left]
      rw [← or_assoc]
      rfl

omit [DecidableEq τ] in
/-- A step that sets neither flag nor semaphore, and leaves a receiver that posts. -/
theorem Flag.keep (h : Flag w) (hwaiter : w'.waiter = w.waiter) (hok : w'.okToRun = w.okToRun)
    (hsem : w'.backendStarted = w.backendStarted)
    (hcame : (∃ msg, IsStart msg ∧ Came w' msg) ↔ ∃ msg, IsStart msg ∧ Came w msg)
    (hboot : w.phase .boot = .idle → w'.phase .boot = .idle)
    (hntfn : ∀ l, w.phase .ntfn = .posting l → w'.phase .ntfn = .posting l) : Flag w' := by
  refine ⟨?_, ?_, ?_, ?_⟩
  · rw [hok, hcame]
    exact h.set_iff
  · rw [hwaiter]
    exact fun hne => hboot (h.booted hne)
  · rw [hwaiter, hok]
    exact h.past
  · rw [hwaiter, hok, hsem]
    intro hw ho
    exact (h.asleep hw ho).imp id fun ⟨l, hl⟩ => ⟨l, hntfn l hl⟩

omit [DecidableEq τ] in
/-- The receiver that works is not the waiter. -/
theorem Flag.goto_boot (h : Flag w) {r : Receiver} (hr : w.phase r ≠ .idle)
    (hwaiter : w.waiter ≠ .checking) : r = .ntfn := by
  cases r with
  | ntfn => rfl
  | boot => exact absurd (h.booted hwaiter) hr

theorem Flag.step (h : Flag w) (hs : StartMoves variant w w') : Flag w' := by
  have hgoto : ∀ (w₁ : State τ) (r : Receiver) (p : Phase), w₁.waiter = w.waiter →
      w₁.okToRun = w.okToRun → w₁.backendStarted = w.backendStarted → w₁.phase = w.phase →
      ((∃ msg, IsStart msg ∧ Came w₁ msg) ↔ ∃ msg, IsStart msg ∧ Came w msg) →
      (w.phase r = .idle → r = .ntfn) → (∀ l, w.phase r ≠ .posting l) → Flag (w₁.goto r p) := by
    intro w₁ r p hwaiter hok hsem hphase hcame hidle hpost
    refine h.keep hwaiter hok hsem hcame ?_ ?_
    · intro hb
      rcases w₁.goto_cases r p .boot with hsame | rfl
      · rw [hsame, hphase, hb]
      · cases hidle hb
    · intro l hl
      rcases w₁.goto_cases r p .ntfn with hsame | rfl
      · rw [hsame, hphase, hl]
      · exact absurd hl (hpost l)
  cases hs with
  | send t act hstep hact => exact h.keep rfl rfl rfl Iff.rfl id fun _ => id
  | drain r rc act hphase hstep hcall hact => exact h.keep rfl rfl rfl Iff.rfl id fun _ => id
  | handle r rc op ret out hphase hpc hstep =>
      exact hgoto _ _ _ rfl rfl rfl rfl Iff.rfl (by simp [hphase]) (by simp [hphase])
  | take hphase => exact hgoto _ _ _ rfl rfl rfl rfl Iff.rfl (fun _ => rfl) (by simp [hphase])
  | register r hphase =>
      exact hgoto _ _ _ rfl rfl rfl rfl Iff.rfl (by simp [hphase]) (by simp [hphase])
  | response r msg hphase =>
      exact hgoto _ _ _ rfl rfl rfl rfl Iff.rfl (by simp [hphase]) (by simp [hphase])
  | responsesDone r hphase =>
      exact hgoto _ _ _ rfl rfl rfl rfl Iff.rfl (by simp [hphase]) (by simp [hphase])
  | process r l msg rc hphase hmsg =>
      refine hgoto _ _ _ (by cases l <;> rfl) (by cases l <;> rfl) (by cases l <;> rfl)
        (w.done_phase r l msg) ?_ (by simp [hphase]) (by simp [hphase])
      -- the message does not start the VM
      simp only [came_done]
      constructor
      · rintro ⟨m, hm, hold | rfl⟩
        · exact ⟨m, hm, hold⟩
        · exact absurd hm hmsg
      · rintro ⟨m, hm, hold⟩
        exact ⟨m, hm, Or.inl hold⟩
  | store r l msg hphase hmsg =>
      have hwaiter : (w.stored r l msg).waiter = w.waiter := by cases l <;> rfl
      have hntfn : w.waiter ≠ .checking → r = .ntfn := h.goto_boot (by simp [hphase])
      refine ⟨iff_of_true rfl ⟨msg, hmsg, ?_⟩, ?_, fun _ => rfl, ?_⟩
      · exact (came_done w r l msg msg).mpr (Or.inr rfl)
      · rw [hwaiter]
        intro hne
        obtain rfl := hntfn hne
        have hsame : (w.stored .ntfn l msg).phase .boot = (w.done .ntfn l msg).phase .boot :=
          (State.goto_cases _ _ _ _).resolve_right nofun
        rw [hsame, w.done_phase]
        exact h.booted hne
      · rw [hwaiter]
        intro hw _
        obtain rfl := hntfn (by simp [hw])
        exact Or.inr ⟨l, State.goto_self ..⟩
  | post r l hphase =>
      have hntfn : w.waiter ≠ .checking → r = .ntfn := h.goto_boot (by simp [hphase])
      refine ⟨h.set_iff, ?_, h.past, fun _ _ => Or.inl (Nat.succ_pos _)⟩
      intro hne
      obtain rfl := hntfn hne
      have hsame : (w.posted .ntfn l).phase .boot = w.phase .boot :=
        (State.goto_cases _ _ _ _).resolve_right nofun
      rw [hsame]
      exact h.booted hne
  | check hphase =>
      refine ⟨h.set_iff, fun _ => hphase, ?_, ?_⟩
      · show (if w.okToRun then Waiter.past else .waiting) = .past → w.okToRun = true
        cases w.okToRun with
        | true => exact fun _ => rfl
        | false => exact nofun
      · show (if w.okToRun then Waiter.past else .waiting) = .waiting → w.okToRun = true → _
        intro hw ho
        rw [ho] at hw
        cases hw
  | wait hwaiter => exact ⟨h.set_iff, fun hne => absurd rfl hne, nofun, nofun⟩

end Flag

/-! ### Doorbells -/

/-- The receiver will look at the event queue again in this activation. -/
def Ahead (w : State τ) (r : Receiver) : Prop :=
  match w.phase r with
  | .idle => False
  | .failed => False
  | .draining _ => ¬ Failed (w.events.sys.pc (.inr r))
  | _ => True

/-- A doorbell is pending, a receiver will look, a sender will ring, or a receiver has failed. -/
def Alert (w : State τ) : Prop :=
  w.pending = true ∨ (∃ r, Ahead w r) ∨ (∃ t, Owes (w.events.sys.pc (.inl t))) ∨
    ∃ r, w.phase r = .failed

/-- **The alert.** -/
structure Awake (w : State τ) : Prop where
  registered : w.registered = false → ∃ r, w.phase r = .registering
  alert : Visible w.events.sys.queue → Alert w

section Awake

variable {w w' : State τ}

omit [DecidableEq τ] in
theorem awake_initial : Awake (State.initial : State τ) where
  registered _ := ⟨.boot, rfl⟩
  alert h := absurd rfl h

omit [DecidableEq τ] in
/-- A receiver in an activation and not on the queue is ahead, or failed. -/
theorem alert_of_busy {r : Receiver} (hpc : w.events.sys.pc (.inr r) = .idle)
    (hbusy : w.phase r ≠ .idle) : Alert w := by
  by_cases hfailed : w.phase r = .failed
  · exact Or.inr (Or.inr (Or.inr ⟨r, hfailed⟩))
  · refine Or.inr (Or.inl ⟨r, ?_⟩)
    unfold Ahead
    cases hphase : w.phase r with
    | idle => exact absurd hphase hbusy
    | failed => exact absurd hphase hfailed
    | draining rc =>
        show ¬ Failed (w.events.sys.pc (.inr r))
        rw [hpc]
        exact not_failed_idle
    | _ => trivial

variable [Fintype τ]

/-- A receiver that finds the queue empty leaves nothing visible. -/
theorem not_visible_of_failed {u v : World (Party τ)} (hu : (worldLts variant).Reachable u)
    {p : Party τ} {act : Act} (hstep : (worldLts variant).step u (p, act) v)
    (hside : ∀ op, opOf (v.sys.pc p) = some op → op.side = .cons)
    (hfailed : Failed (v.sys.pc p)) : ¬ Visible v.sys.queue := by
  obtain ⟨op, ret, out, hpc, hret⟩ := hfailed
  have hcons : op.side = .cons := hside op (by rw [hpc]; rfl)
  have hboth : (¬ ∃ o ou, u.sys.pc p = .returned o (-1) ou) ∧ ret = -1 ∧
      v.sys.queue = u.sys.queue := by
    obtain ⟨_, s', e, hsys, rfl⟩ := hstep
    obtain ⟨q', buf', pc', rfl, hmove⟩ := sysStep_moves hsys
    simp only [Function.update_self] at hpc
    subst hpc
    generalize u.sys.pc p = pc at hmove
    generalize hr : Pc.returned op ret out = pc' at hmove
    cases hmove with
    | full op' ot hzero =>
        cases hr
        exact ⟨nofun, rfl, rfl⟩
    | commit op' out' oh tl heq =>
        cases hr
        exact absurd rfl hret
    | body op' entry b word hbody => cases ‹BodyResult› <;> cases hr
    | _ => cases hr
  obtain ⟨hu', rfl, hqueue⟩ := hboth
  have hex := exhausted_of_failing hu hstep hu' hpc
  rw [hcons] at hex
  rw [hqueue]
  exact fun hvis => hvis hex

theorem Awake.send (h : Awake w) (ht : Threads variant w) {t : τ} {act : Act}
    {v : World (Party τ)} {pending : Bool}
    (hstep : (worldLts variant).step w.events (.inl t, act) v) (hact : Sends w t act pending) :
    Awake { w with events := v, pending := pending } := by
  refine ⟨h.registered, ?_⟩
  intro hvis
  have hother : ∀ x : Party τ, x ≠ .inl t → v.sys.pc x = w.events.sys.pc x :=
    fun x hx => pc_of_other hstep (Ne.symm hx)
  obtain ⟨_, s', e, hsys, rfl⟩ := hstep
  obtain ⟨q', buf', pc', rfl, hmove⟩ := sysStep_moves hsys
  have hcons : q'.bound .cons = w.events.sys.queue.bound .cons :=
    bound_step hmove fun op hop => by rw [ht.senders t op hop]; exact nofun
  by_cases hhead : q'.prod.head = w.events.sys.queue.prod.head
  · have hvis' : Visible w.events.sys.queue := by
      unfold Visible at hvis ⊢
      rw [← hhead, ← show q'.cons = w.events.sys.queue.cons from hcons]
      exact hvis
    rcases h.alert hvis' with hpending | ⟨r, hr⟩ | ⟨x, hx⟩ | hfailed
    · exact Or.inl (hact.keep hpending)
    · refine Or.inr (Or.inl ⟨r, ?_⟩)
      unfold Ahead at hr ⊢
      rw [hother (.inr r) nofun]
      exact hr
    · by_cases hxt : x = t
      · subst hxt
        by_cases hleave : act = .leave
        · exact Or.inl (hact.ring hleave hx)
        · refine Or.inr (Or.inr (Or.inl ⟨x, ?_⟩))
          simp only [Function.update_self]
          exact owes_step hmove ht.inv.ring hleave hx
      · refine Or.inr (Or.inr (Or.inl ⟨x, ?_⟩))
        rw [hother (.inl x) fun he => hxt (Sum.inl.inj he)]
        exact hx
    · exact Or.inr (Or.inr (Or.inr hfailed))
  · -- the sender that moves the head owes the doorbell
    refine Or.inr (Or.inr (Or.inl ⟨t, ?_⟩))
    simp only [Function.update_self]
    exact owes_of_head_moved hmove hhead

theorem Awake.drain (h : Awake w) (ht : Threads variant w) {r : Receiver} {rc : ℤ} {act : Act}
    {v : World (Party τ)} (hphase : w.phase r = .draining rc)
    (hstep : (worldLts variant).step w.events (.inr r, act) v)
    (hcall : ∀ op, act = .call op → op = .eventRx) : Awake { w with events := v } := by
  refine ⟨h.registered, ?_⟩
  intro hvis
  refine Or.inr (Or.inl ⟨r, ?_⟩)
  show match w.phase r with
    | .idle => False
    | .failed => False
    | .draining _ => ¬ Failed (v.sys.pc (.inr r))
    | _ => True
  rw [hphase]
  refine fun hfailed => not_visible_of_failed ht.queue.of_restrict hstep ?_ hfailed hvis
  intro op hop
  rcases opOf_worldStep hstep hop with hold | hcalled
  · rw [ht.receivers r op hold]
    rfl
  · rw [hcall op hcalled]
    rfl

omit [Fintype τ] in
theorem Awake.handle (h : Awake w) {r : Receiver} {rc ret : ℤ}
    {op : Op} {out : Out} {v : World (Party τ)} (hphase : w.phase r = .draining rc)
    (hpc : w.events.sys.pc (.inr r) = .returned op ret out)
    (hstep : (worldLts variant).step w.events (.inr r, .leave) v) :
    Awake ({ w with events := v }.goto r (afterRx rc ret out)) := by
  obtain ⟨hidle, hqueue, -⟩ := leave_step hstep
  have hother : ∀ x : Party τ, x ≠ .inr r → v.sys.pc x = w.events.sys.pc x :=
    fun x hx => pc_of_other hstep (Ne.symm hx)
  have hkeep : ∀ x, x ≠ r →
      ({ w with events := v }.goto r (afterRx rc ret out)).phase x = w.phase x := by
    intro x hx
    exact Function.update_of_ne hx _ _
  refine ⟨?_, ?_⟩
  · intro hreg
    obtain ⟨x, hx⟩ := h.registered hreg
    have hxr : x ≠ r := by
      rintro rfl
      rw [hphase] at hx
      cases hx
    exact ⟨x, (hkeep x hxr).trans hx⟩
  · intro hvis
    by_cases hbusy : afterRx rc ret out = .idle
    · -- the loop ends: the receiver was not ahead before either
      have hfail : Failed (w.events.sys.pc (.inr r)) := by
        refine ⟨op, ret, out, hpc, ?_⟩
        rintro rfl
        cases out <;> cases hbusy
      have hvis' : Visible w.events.sys.queue := by
        rw [← hqueue]
        exact hvis
      rcases h.alert hvis' with hpending | ⟨x, hx⟩ | ⟨x, hx⟩ | ⟨x, hx⟩
      · exact Or.inl hpending
      · have hxr : x ≠ r := by
          rintro rfl
          simp only [Ahead, hphase] at hx
          exact hx hfail
        refine Or.inr (Or.inl ⟨x, ?_⟩)
        unfold Ahead at hx ⊢
        rw [hkeep x hxr]
        show match w.phase x with
          | .idle => False
          | .failed => False
          | .draining _ => ¬ Failed (v.sys.pc (.inr x))
          | _ => True
        rw [hother (.inr x) fun he => hxr (Sum.inr.inj he)]
        exact hx
      · refine Or.inr (Or.inr (Or.inl ⟨x, ?_⟩))
        show Owes (v.sys.pc (.inl x))
        rw [hother (.inl x) nofun]
        exact hx
      · have hxr : x ≠ r := by
          rintro rfl
          rw [hphase] at hx
          cases hx
        exact Or.inr (Or.inr (Or.inr ⟨x, (hkeep x hxr).trans hx⟩))
    · refine alert_of_busy (r := r) hidle ?_
      rw [State.goto_self]
      exact hbusy

theorem next_ne_idle (l : Source) (rc : Option ℤ) : next l rc ≠ .idle := by
  cases rc with
  | none => cases l <;> exact nofun
  | some rc => cases l <;> simp only [next] <;> split <;> exact nofun

theorem Awake.step (h : Awake w) (ht : Threads variant w) (hs : StartMoves variant w w') :
    Awake w' := by
  -- a receiver away from the queue goes on
  have hgoto : ∀ (w₁ : State τ) (r : Receiver) (p : Phase), w₁.events = w.events →
      w₁.phase = w.phase → (∀ rc, w.phase r ≠ .draining rc) → p ≠ .idle →
      (w₁.registered = false → p = .registering ∨
        (w.registered = false ∧ w.phase r ≠ .registering)) → Awake (w₁.goto r p) := by
    intro w₁ r p he hphase hr hp hreg
    refine ⟨?_, ?_⟩
    · intro hfalse
      rcases hreg hfalse with rfl | ⟨hold, hne⟩
      · exact ⟨r, State.goto_self ..⟩
      · obtain ⟨x, hx⟩ := h.registered hold
        rcases w₁.goto_cases r p x with hsame | rfl
        · exact ⟨x, by rw [hsame, hphase, hx]⟩
        · exact absurd hx hne
    · intro _
      refine alert_of_busy (r := r) ?_ ?_
      · show w₁.events.sys.pc (.inr r) = .idle
        rw [he]
        exact ht.resting r hr
      · rw [State.goto_self]
        exact hp
  cases hs with
  | send t act hstep hact => exact h.send ht hstep hact
  | drain r rc act hphase hstep hcall hact => exact h.drain ht hphase hstep hcall
  | handle r rc op ret out hphase hpc hstep => exact h.handle hphase hpc hstep
  | take hphase => exact hgoto _ _ _ rfl rfl (by simp [hphase]) nofun fun _ => Or.inl rfl
  | register r hphase => exact hgoto _ _ _ rfl rfl (by simp [hphase]) nofun nofun
  | response r msg hphase =>
      exact hgoto _ _ _ rfl rfl (by simp [hphase]) nofun fun hf => Or.inr ⟨hf, by simp [hphase]⟩
  | responsesDone r hphase =>
      exact hgoto _ _ _ rfl rfl (by simp [hphase]) nofun fun hf => Or.inr ⟨hf, by simp [hphase]⟩
  | process r l msg rc hphase hmsg =>
      refine hgoto _ _ _ (w.done_events r l msg) (w.done_phase r l msg) (by simp [hphase])
        (next_ne_idle l rc) ?_
      intro hf
      refine Or.inr ⟨?_, by simp [hphase]⟩
      cases l <;> exact hf
  | store r l msg hphase hmsg =>
      refine hgoto _ _ _ (w.done_events r l msg) (w.done_phase r l msg) (by simp [hphase]) nofun ?_
      intro hf
      refine Or.inr ⟨?_, by simp [hphase]⟩
      cases l <;> exact hf
  | post r l hphase =>
      exact hgoto _ _ _ rfl rfl (by simp [hphase]) (next_ne_idle l _)
        fun hf => Or.inr ⟨hf, by simp [hphase]⟩
  | check hphase => exact ⟨h.registered, h.alert⟩
  | wait hwaiter => exact ⟨h.registered, h.alert⟩

end Awake

/-! ### Every run -/

/-- What holds in every reachable state. -/
structure StartInv (variant : Party τ → CasVariant) (w : State τ) : Prop where
  threads : Threads variant w
  account : Account w
  flag : Flag w
  awake : Awake w

/-- `r` has acquired the event at position `p`, and `rpc_process` is not done with it. -/
def Holds (w : State τ) (r : Receiver) (p : ℕ) : Prop :=
  w.events.hist.place (.inr r) = p ∧ (w.events.sys.pc (.inr r)).InFlight .cons ∨ AtHand w r p

/-- Events are handled once and whole, and the VM starts after a start message: every event before
it is done then, unless the thread that waited for the start has handled the start itself and the
notification thread still holds the event. -/
structure Orderly (w : State τ) : Prop where
  once : (w.handled.map Prod.fst).Nodup
  whole : ∀ p msg, (p, msg) ∈ w.handled →
    w.events.hist.sent p = some msg ∧ p ∈ w.events.hist.commits .prod
  started : w.waiter = .past → ∃ msg, IsStart msg ∧ (msg ∈ w.responses ∨
    ∃ p r, (p, msg) ∈ w.handled ∧
      (w.events.hist.acquirers .cons)[p]? = some (.inr r, .eventRx) ∧
      ∀ k < p, k ∈ w.handled.map Prod.fst ∨ (r = .boot ∧ Holds w .ntfn k))

/-- The threads have come to rest. -/
structure AtRest (w : State τ) : Prop where
  senders : ∀ t, w.events.sys.pc (.inl t) = .idle
  receivers : ∀ r, w.phase r = .idle
  doorbell : ¬ (w.pending = true ∧ w.registered = true)
  waiter : w.waiter ≠ .checking ∧ ¬ (w.waiter = .waiting ∧ 0 < w.backendStarted)

section Runs

variable [Fintype τ] {w : State τ}

theorem startInv_of_reachable (h : (startLts variant).Reachable w) : StartInv variant w := by
  refine h.invariant ?_ ?_
  · rintro w rfl
    refine ⟨⟨.init rfl, nofun, nofun, fun _ _ => rfl⟩, account_initial, flag_initial,
      awake_initial⟩
  · intro u l v _ hi hs
    have hmoves : StartMoves variant u v := startStep_moves hs
    exact ⟨hi.threads.step hmoves, hi.account.step hi.threads hmoves, hi.flag.step hmoves,
      hi.awake.step hi.threads hmoves⟩

/-- An event that a receiver acquired is done or held. -/
theorem StartInv.done_or_held (h : StartInv variant w) {p : ℕ}
    (hp : p < w.events.hist.acquired .cons) :
    p ∈ w.handled.map Prod.fst ∨ ∃ r, Holds w r p := by
  rcases h.threads.places.covered .cons p hp with hcommitted | ⟨t, hfly, hplace⟩
  · exact (h.account.taken p hcommitted).imp id fun ⟨r, hr⟩ => ⟨r, Or.inr hr⟩
  · obtain ⟨r, rfl⟩ := h.threads.receiver_of_inFlight hfly
    exact Or.inr ⟨r, Or.inl ⟨hplace, hfly⟩⟩

omit [Fintype τ] in
/-- A receiver that is in no activation holds nothing. -/
theorem StartInv.not_holds (h : StartInv variant w) {r : Receiver} (hr : w.phase r = .idle)
    (p : ℕ) : ¬ Holds w r p := by
  have hpc : w.events.sys.pc (.inr r) = .idle := h.threads.resting r (by simp [hr])
  rintro (⟨-, hfly⟩ | ⟨-, ⟨op, out, hret⟩ | ⟨msg, hproc⟩⟩)
  · rw [hpc] at hfly
    exact hfly
  · rw [hpc] at hret
    cases hret
  · rw [hr] at hproc
    cases hproc

/-- Where an event that is done comes from. -/
theorem StartInv.handled (h : StartInv variant w) {p : ℕ} {msg : RpcMsg}
    (hmem : (p, msg) ∈ w.handled) :
    w.events.hist.sent p = some msg ∧ p ∈ w.events.hist.commits .prod ∧
      ∃ r, (w.events.hist.acquirers .cons)[p]? = some (.inr r, .eventRx) ∧
        p ≤ w.events.hist.place (.inr r) := by
  have hreceived := h.account.received p msg hmem
  obtain ⟨⟨m, hm, hsent⟩, hcommitted, t, hacq⟩ :=
    (payloadInv_of_reachable h.threads.queue).delivered _ _ hreceived
  cases hm
  obtain ⟨r, hr, hle⟩ := h.account.latest p _ hacq
  simp only at hr
  subst hr
  exact ⟨hsent, hcommitted, r, hacq, hle⟩

/-- **The VM starts after its backend.**  Any number of senders, the thread that waits for the start
and the notification thread, in any order of their accesses and with fresh copies of the markers:
every event is handled at most once and as it was sent, and when the VM starts, a start message has
come.  If it came as an event, no event before it is open, except one that the notification thread
took when the waiting thread itself handled the start. -/
theorem start_follows (h : (startLts variant).Reachable w) : Orderly w := by
  have hi := startInv_of_reachable h
  refine ⟨hi.account.once, ?_, ?_⟩
  · intro p msg hmem
    obtain ⟨hsent, hcommitted, -⟩ := hi.handled hmem
    exact ⟨hsent, hcommitted⟩
  · intro hpast
    obtain ⟨msg, hmsg, hcame⟩ := hi.flag.set_iff.mp (hi.flag.past hpast)
    have hboot : w.phase .boot = .idle := hi.flag.booted (by simp [hpast])
    refine ⟨msg, hmsg, ?_⟩
    rcases hcame with hresponse | ⟨p, hmem⟩
    · exact Or.inl hresponse
    · obtain ⟨-, -, r, hacq, hle⟩ := hi.handled hmem
      refine Or.inr ⟨p, r, hmem, hacq, ?_⟩
      intro k hk
      have hlt : p < w.events.hist.acquired .cons := (List.getElem?_eq_some_iff.mp hacq).1
      rcases hi.done_or_held (p := k) (by omega) with hdone | ⟨x, hholds⟩
      · exact Or.inl hdone
      · cases x with
        | boot => exact absurd hholds (hi.not_holds hboot k)
        | ntfn =>
            refine Or.inr ⟨?_, hholds⟩
            cases r with
            | boot => rfl
            | ntfn =>
                -- what the notification thread holds is the last it acquired
                have hplace : w.events.hist.place (.inr .ntfn) = k := by
                  rcases hholds with ⟨hplace, -⟩ | ⟨hplace, -⟩
                  · exact hplace
                  · exact hplace
                omega

/-- **No start is lost.**  When all threads have come to rest and none has failed, every event that
was sent is handled, and the VM has started exactly if a start message was sent as an event or came
as a response. -/
theorem start_not_lost (h : (startLts variant).Reachable w) (hrest : AtRest w) :
    (∀ p < w.events.hist.acquired .prod, ∃ msg, w.events.hist.sent p = some msg ∧
      (p, msg) ∈ w.handled) ∧
    (w.waiter = .past ↔
      ∃ msg, IsStart msg ∧ (msg ∈ w.responses ∨ ∃ p, w.events.hist.sent p = some msg)) := by
  have hi := startInv_of_reachable h
  have hreceiver : ∀ r, w.events.sys.pc (.inr r) = .idle :=
    fun r => hi.threads.resting r (by simp [hrest.receivers r])
  have hquiet : ¬ Visible w.events.sys.queue := by
    intro hvis
    rcases hi.awake.alert hvis with hpending | ⟨r, hr⟩ | ⟨t, ht⟩ | ⟨r, hr⟩
    · cases hreg : w.registered with
      | true => exact hrest.doorbell ⟨hpending, hreg⟩
      | false =>
          obtain ⟨r, hr⟩ := hi.awake.registered hreg
          rw [hrest.receivers r] at hr
          cases hr
    · unfold Ahead at hr
      rw [hrest.receivers r] at hr
      exact hr
    · rw [hrest.senders t] at ht
      rcases ht with hfly | ⟨op, out, hret⟩
      · exact hfly
      · cases hret
    · rw [hrest.receivers r] at hr
      cases hr
  -- all that was sent is published, and all that is published was acquired
  have hall : w.events.hist.acquired .prod = w.events.hist.acquired .cons := by
    have hidle : ∀ t, ¬ (w.events.sys.pc t).InFlight .prod := by
      rintro (t | r) hfly
      · rw [hrest.senders t] at hfly
        exact hfly
      · rw [hreceiver r] at hfly
        exact hfly
    have hpublished := (hi.threads.inv.settled_of_idle hidle).2
    have hpos : w.events.sys.queue.prod.head.pos = w.events.sys.queue.cons.tail.pos :=
      not_not.mp hquiet
    have hentries := hi.threads.inv.entries_cons_iff.mp (by
      show w.events.sys.queue.prod.head.pos - w.events.sys.queue.cons.tail.pos = 0#32
      rw [hpos, BitVec.sub_self])
    omega
  have hdone : ∀ p < w.events.hist.acquired .prod, ∃ msg, w.events.hist.sent p = some msg ∧
      (p, msg) ∈ w.handled := by
    intro p hp
    rcases hi.done_or_held (p := p) (by omega) with hmem | ⟨r, hholds⟩
    · obtain ⟨⟨q, msg⟩, hmem', rfl⟩ := List.mem_map.mp hmem
      exact ⟨msg, (hi.handled hmem').1, hmem'⟩
    · exact absurd hholds (hi.not_holds (hrest.receivers r) p)
  refine ⟨hdone, ?_⟩
  constructor
  · intro hpast
    obtain ⟨msg, hmsg, hcame⟩ := hi.flag.set_iff.mp (hi.flag.past hpast)
    refine ⟨msg, hmsg, hcame.imp id ?_⟩
    rintro ⟨p, hmem⟩
    exact ⟨p, (hi.handled hmem).1⟩
  · rintro ⟨msg, hmsg, hsent⟩
    have hset : w.okToRun = true := by
      refine hi.flag.set_iff.mpr ⟨msg, hmsg, hsent.imp id ?_⟩
      rintro ⟨p, hp⟩
      obtain ⟨t, hacq⟩ := Hist.exists_acquirer_of_sent hp
      obtain ⟨msg', hmsg', hmem⟩ := hdone p (List.getElem?_eq_some_iff.mp hacq).1
      rw [hp] at hmsg'
      cases hmsg'
      exact ⟨p, hmem⟩
    cases hwaiter : w.waiter with
    | past => rfl
    | checking => exact absurd hwaiter hrest.waiter.1
    | waiting =>
        -- a sleeping waiter would have been woken up
        rcases hi.flag.asleep hwaiter hset with hsem | ⟨l, hl⟩
        · exact absurd ⟨hwaiter, hsem⟩ hrest.waiter.2
        · rw [hrest.receivers] at hl
          cases hl

end Runs

/-- A sender's event, from call to doorbell. -/
def sendScript (msg : RpcMsg) : List (StartAct Unit) :=
  .deviceEventTx () msg ::
    (List.replicate 4 none ++ (List.finRange 4).map some ++ List.replicate 4 none).map
      (fun word => .send () word) ++ [.ring ()]

/-- A receiver takes an event, from the call of `rpcmsg_event_rx` to its return. -/
def takeScript (r : Receiver) : List (StartAct Unit) :=
  .eventRx r ::
    (List.replicate 5 none ++ (List.finRange 4).map some ++ List.replicate 3 none).map
      (fun word => .receive r word) ++ [.handle r]

/-- A receiver finds the queue empty. -/
def emptyScript (r : Receiver) : List (StartAct Unit) :=
  .eventRx r :: (List.replicate 3 none).map (fun word => .receive r word) ++ [.handle r]

/-- `QEMU_OP_START_VM`. -/
def startMsg : RpcMsg := (DeviceRequest.startVm).words

/-- The notification thread takes the first of two events and is still in `rpc_process` when the
other receiver handles the start. -/
def overtakenScript : List (StartAct Unit) :=
  sendScript (DeviceRequest.setIrqline 100#64).words ++ sendScript startMsg ++
    [.register .boot, .responsesDone .boot, .take, .register .ntfn, .responsesDone .ntfn] ++
    takeScript .ntfn ++ takeScript .boot ++ [.store .boot, .post .boot] ++ emptyScript .boot ++
    [.check]

def overtaken : State Unit := play (startStep fun _ => .user) .initial overtakenScript

/-- The exception in `start_follows` is real: the VM starts before the first event is handled. -/
theorem start_follows_overtaken :
    Orderly overtaken ∧ overtaken.waiter = .past ∧ overtaken.handled.map Prod.fst = [1] := by
  have hreach : (startLts fun _ => .user).Reachable overtaken :=
    Lts.Reachable.play (fun _ _ _ hs => hs) (.init rfl) overtakenScript
  refine ⟨start_follows hreach, ?_, ?_⟩
  · decide +kernel
  · decide +kernel

/-- The waiting thread handles the start, and the notification thread answers the doorbell. -/
def startedScript : List (StartAct Unit) :=
  sendScript startMsg ++ [.register .boot, .responsesDone .boot] ++ takeScript .boot ++
    [.store .boot, .post .boot] ++ emptyScript .boot ++
    [.check, .take, .register .ntfn, .responsesDone .ntfn] ++ emptyScript .ntfn

def started : State Unit := play (startStep fun _ => .user) .initial startedScript

/-- `start_not_lost` after one start message. -/
theorem start_not_lost_started :
    started.waiter = .past ∧ ∃ msg, (0, msg) ∈ started.handled := by
  have hreach : (startLts fun _ => .user).Reachable started :=
    Lts.Reachable.play (fun _ _ _ hs => hs) (.init rfl) startedScript
  have hrest : AtRest started := by
    refine ⟨?_, ?_, ?_, ?_⟩
    · intro t
      decide +kernel +revert
    · intro r
      cases r <;> decide +kernel
    · decide +kernel
    · decide +kernel
  have hsent : started.events.hist.sent 0 = some startMsg := by decide +kernel
  obtain ⟨hall, hpast⟩ := start_not_lost hreach hrest
  refine ⟨hpast.mpr ⟨startMsg, by decide, Or.inr ⟨0, hsent⟩⟩, ?_⟩
  obtain ⟨msg, -, hmem⟩ := hall 0 (by decide +kernel)
  exact ⟨msg, hmem⟩

end TiiSel4Vm.Startup
