import TiiSel4Vm.Queue.Solo

/-!
# Doorbells and the notification thread

Devices put responses and events into two queues and ring a doorbell; the VMM's notification thread
takes the doorbell, registers its callback again and runs `rpc_run`, which drains the response queue
and then the event queue.  Senders and receiver make single accesses, in any order.

* `LinkInv` — what one queue and the threads on it satisfy: the receiver is its only consumer;
* `no_lost_wakeup` — a visible message is announced, about to be looked for, or about to be
  announced.
-/

namespace TiiSel4Vm.Doorbell

open TiiSel4Vm.Transition TiiSel4Vm.RpcQueue

/-! ### The system -/

/-- The two queues the notification thread drains. -/
inductive Link where
  | response
  | event
  deriving DecidableEq

/-- The notification thread in its activation. -/
inductive Activation where
  /-- no activation: `rpc_run` has returned or not started -/
  | waiting
  /-- in `_ntfn_callback`, before it registers the callback again -/
  | registering
  /-- in the loop of `rpc_run` over queue `l` -/
  | draining (l : Link)
  deriving DecidableEq

/-- The dequeue of the loops: `rpcmsg_receive_response` or `rpcmsg_event_rx`. -/
def Link.dequeue : Link → Op
  | .response => .rpcDequeue
  | .event => .eventRx

/-- What `rpc_run` does after the loop over a queue: it drains the events after the responses. -/
def Link.after : Link → Activation
  | .response => .draining .event
  | .event => .waiting

/-- The queues, each with the receiver (`none`) and the senders (`some t`) on it, and the
notification. -/
structure Bell (τ : Type) where
  link : Link → Sys (Option τ)
  pending : Bool
  receiver : Activation

inductive BellAct (τ : Type) where
  /-- sender `t` calls `device_event_tx` -/
  | deviceEventTx (t : τ) (msg : RpcMsg)
  /-- sender `t` calls `driver_rpc_reply` -/
  | driverRpcReply (t : τ) (msg : Fin rpcmsgBufferSize)
  /-- sender `t` makes its next access on queue `l` -/
  | send (l : Link) (t : τ) (word : Option (Fin 4))
  /-- the enqueue of sender `t` has returned: `vso_doorbell` if it returned 0 -/
  | ring (l : Link) (t : τ)
  /-- the receiver takes a pending doorbell -/
  | take
  /-- the receiver registers its callback again and enters `rpc_run` -/
  | register
  /-- the loop of `rpc_run` calls its dequeue -/
  | dequeue
  /-- the receiver makes its next access -/
  | receive (word : Option (Fin 4))
  /-- the dequeue has returned: the message is handled, or the loop ends -/
  | handle

variable {τ : Type} [DecidableEq τ]

/-- Queue `l` is in state `s` now. -/
def Bell.setLink (w : Bell τ) (l : Link) (s : Sys (Option τ)) : Bell τ :=
  { w with link := Function.update w.link l s }

/-- A thread makes a step on queue `l`. -/
def Bell.onLink (variant : Option τ → CasVariant) (w : Bell τ) (l : Link) (t : Option τ)
    (act : Act) : Option (Bell τ) :=
  (sysStep variant (w.link l) t act).map fun r => w.setLink l r.1

/-- Sender `t` is in no call. -/
def Bell.Free (w : Bell τ) (t : τ) : Prop := ∀ l, (w.link l).pc (some t) = .idle

instance (w : Bell τ) (t : τ) : Decidable (w.Free t) :=
  decidable_of_iff ((w.link .response).pc (some t) = .idle ∧ (w.link .event).pc (some t) = .idle)
    ⟨fun h l => by cases l <;> [exact h.1; exact h.2], fun h => ⟨h _, h _⟩⟩

/-- The return value of a call that has returned. -/
def Bell.ret (w : Bell τ) (l : Link) (t : Option τ) : Option ℤ :=
  match (w.link l).pc t with
  | .returned _ ret _ => some ret
  | _ => none

/-- One step. -/
def bellStep (variant : Option τ → CasVariant) (w : Bell τ) : BellAct τ → Option (Bell τ)
  | .deviceEventTx t msg =>
      if w.Free t then w.onLink variant .event (some t) (.call (.eventTx msg)) else none
  | .driverRpcReply t msg =>
      if w.Free t then w.onLink variant .response (some t) (.call (.rpcEnqueue msg)) else none
  | .send l t word => w.onLink variant l (some t) (.step word)
  | .ring l t =>
      match w.ret l (some t) with
      | none => none
      | some ret =>
          (w.onLink variant l (some t) .leave).map fun w' =>
            { w' with pending := if ret = 0 then true else w'.pending }
  | .take =>
      if w.receiver = .waiting ∧ w.pending = true then
        some { w with receiver := .registering, pending := false }
      else none
  | .register =>
      if w.receiver = .registering then some { w with receiver := .draining .response } else none
  | .dequeue =>
      match w.receiver with
      | .draining l => w.onLink variant l none (.call l.dequeue)
      | _ => none
  | .receive word =>
      match w.receiver with
      | .draining l => w.onLink variant l none (.step word)
      | _ => none
  | .handle =>
      match w.receiver with
      | .draining l =>
          match w.ret l none with
          | none => none
          | some ret =>
              (w.onLink variant l none .leave).map fun w' =>
                { w' with receiver := if ret = 0 then .draining l else l.after }
      | _ => none

/-- Initially the queues are empty and no doorbell is pending; `_io_proxy_run` starts the first
activation itself. -/
def bellLts (variant : Option τ → CasVariant) : Lts (Bell τ) (BellAct τ) :=
  .ofFun (fun w => (∀ l, w.link l = .initial) ∧ w.pending = false ∧
    (w.receiver = .waiting ∨ w.receiver = .registering)) (bellStep variant)

/-! ### Visible messages, attempts and debts -/

/-- The queue holds a committed message that no consumer has claimed. -/
def Visible (q : Queue) : Prop := q.prod.head.pos ≠ q.cons.tail.pos

/-- The receiver's dequeue on this queue has failed. -/
def Failed (pc : Pc) : Prop := ∃ op ret out, pc = .returned op ret out ∧ ret ≠ 0

/-- The receiver still has a dequeue attempt on queue `l` ahead in its activation. -/
def AttemptAhead (w : Bell τ) (l : Link) : Prop :=
  match w.receiver with
  | .waiting => False
  | .registering => True
  | .draining r => (r = l ∧ ¬ Failed ((w.link l).pc none)) ∨ (r = .response ∧ l = .event)

/-- A sender that has acquired an entry and not yet committed it, or that has committed it and not
yet rung the doorbell. -/
def Owes (pc : Pc) : Prop := pc.InFlight .prod ∨ ∃ op out, pc = .returned op 0 out

/-- Some sender on queue `l` has its commit or its doorbell still to perform. -/
def SenderDue (w : Bell τ) (l : Link) : Prop := ∃ t, Owes ((w.link l).pc (some t))

/-! ### One queue and its threads -/

/-- The operation a thread is in. -/
def opOf : Pc → Option Op
  | .acquiring op _ => some op
  | .body op _ _ => some op
  | .committing op _ _ => some op
  | .returned op _ _ => some op
  | _ => none

/-- Senders only enqueue, and the receiver, which only dequeues, holds current copies. -/
structure LinkInv (s : Sys (Option τ)) : Prop where
  ring : RingHoldsIds s.queue
  senders : ∀ t op, opOf (s.pc (some t)) = some op → op.side = .prod
  receiver : ∀ op, opOf (s.pc none) = some op → op.side = .cons
  current : CopyCurrent s.queue (s.pc none)

section Link

variable {v : CasVariant} {q q' : Queue} {buf buf' : RpcMsgBuffer} {pc pc' : Pc} {act : Act}
  {e : Event}

theorem op_of_holdsTail {r : Side} (h : pc.HoldsTail r) :
    ∃ op, opOf pc = some op ∧ op.side = r := by
  cases pc with
  | acquiring op a => cases a <;> first | exact h.elim | exact ⟨op, rfl, h⟩
  | _ => exact h.elim

theorem op_of_holdsHead {r : Side} (h : pc.HoldsHead r) :
    ∃ op, opOf pc = some op ∧ op.side = r := by
  cases pc with
  | committing op out c => cases c <;> first | exact h.elim | exact ⟨op, rfl, h⟩
  | _ => exact h.elim

/-- A step keeps the operation, starts the one that is called, or ends it. -/
theorem opOf_step (h : Moves v q buf pc act q' buf' pc' e) {op : Op} (hop : opOf pc' = some op) :
    opOf pc = some op ∨ act = .call op := by
  cases h with
  | call op' =>
      cases hop
      exact Or.inr rfl
  | body op' entry b word hb =>
      refine Or.inl ?_
      cases ‹BodyResult› with
      | more b' => exact hop
      | finished out => exact hop
      | abort => cases hop
  | leave op' ret out => cases hop
  | _ => exact Or.inl hop

/-- A step leaves the markers of the side it does not work on. -/
theorem bound_step (h : Moves v q buf pc act q' buf' pc' e) {r : Side}
    (hop : ∀ op, opOf pc = some op → op.side ≠ r) : q'.bound r = q.bound r := by
  cases h with
  | acquire op ot _ => exact Queue.bound_setBound_ne _ _ (hop op rfl).symm
  | commit op out oh t _ => exact Queue.bound_setBound_ne _ _ (hop op rfl).symm
  | body op entry b word hb => exact (bodyStep_frame hb).1 r
  | _ => rfl

theorem ring_step (h : Moves v q buf pc act q' buf' pc' e) (hr : RingHoldsIds q) :
    RingHoldsIds q' := by
  have hset : ∀ b s, RingHoldsIds (q.setBound b s) := fun b s i => by
    rw [Queue.setBound_ring]
    exact hr i
  cases h with
  | acquire op ot _ => exact hset _ _
  | commit op out oh t _ => exact hset _ _
  | body op entry b word hb => exact ((bodyStep_frame hb).2 hr).1
  | _ => exact hr

/-- Until a sender leaves its call, what it owes it keeps owing. -/
theorem owes_step (h : Moves v q buf pc act q' buf' pc' e) (hr : RingHoldsIds q)
    (hact : act ≠ .leave) (howes : Owes pc) : Owes pc' := by
  rcases howes with hfly | ⟨op, out, rfl⟩
  · cases h with
    | body op entry b word hb =>
        exact Or.inl ((BodyResult.pc_inFlight ((bodyStep_frame hb).2 hr).2 .prod).mpr hfly)
    | loadHead op out => exact Or.inl hfly
    | sampleTail op out oh => exact Or.inl hfly
    | commitLost op out oh t _ => exact Or.inl hfly
    | commit op out oh t _ => exact Or.inr ⟨op, out, rfl⟩
    | _ => exact hfly.elim
  · cases h
    exact absurd rfl hact

/-- A sender that moves the head owes the doorbell. -/
theorem owes_of_head_moved (h : Moves v q buf pc act q' buf' pc' e)
    (hhead : q'.prod.head ≠ q.prod.head) : Owes pc' := by
  cases h with
  | acquire op ot _ =>
      refine absurd ?_ hhead
      cases hs : op.side <;> simp [Queue.setBound, Queue.bound]
  | commit op out oh t _ => exact Or.inr ⟨op, out, rfl⟩
  | body op entry b word hb =>
      exact absurd (congrArg Bound.head ((bodyStep_frame hb).1 .prod)) hhead
  | _ => exact absurd rfl hhead

/-- A receiver whose dequeue fails, with a current copy of the tail, sees nothing visible. -/
theorem not_visible_of_fails (h : Moves v q buf pc act q' buf' pc' e) (hcur : CopyCurrent q pc)
    (hside : ∀ op, opOf pc = some op → op.side = .cons) (hnew : Failed pc') : ¬ Visible q' := by
  obtain ⟨op', ret, out', rfl, hret⟩ := hnew
  generalize hpc' : Pc.returned op' ret out' = pc' at h
  cases h with
  | full op ot hzero =>
      have hs := hside op rfl
      have htail : (q.bound op.side).tail = ot := hcur
      rw [hs] at hzero htail
      simp only [entries] at hzero
      intro hvis
      refine hvis ?_
      rw [BitVec.sub_eq_iff_eq_add, BitVec.zero_add] at hzero
      rw [hzero, ← htail]
      rfl
  | commit op out oh t _ =>
      cases hpc'
      exact absurd rfl hret
  | body op entry b word hb => cases ‹BodyResult› <;> simp [BodyResult.pc] at hpc'
  | leave op ret' out => cases hpc'
  | _ => cases hpc'

end Link

section LinkSteps

variable {variant : Option τ → CasVariant} {s s' : Sys (Option τ)} {act : Act} {e : Event}

omit [DecidableEq τ] in
theorem linkInv_initial : LinkInv (Sys.initial : Sys (Option τ)) where
  ring i := ⟨⟨0, by decide⟩, rfl⟩
  senders _ _ h := by cases h
  receiver _ h := by cases h
  current := trivial

/-- A sender's step. -/
theorem LinkInv.senderStep (h : LinkInv s) {t : τ}
    (hs : sysStep variant s (some t) act = some (s', e))
    (hcall : ∀ op, act = .call op → op.side = .prod) :
    LinkInv s' ∧ s'.queue.cons = s.queue.cons ∧
      (s'.queue.prod.head ≠ s.queue.prod.head → Owes (s'.pc (some t))) ∧
      (act ≠ .leave → Owes (s.pc (some t)) → Owes (s'.pc (some t))) ∧
      ∀ u, u ≠ some t → s'.pc u = s.pc u := by
  obtain ⟨q', buf', pc', rfl, hmove⟩ := sysStep_moves hs
  have hcons : q'.bound .cons = s.queue.bound .cons :=
    bound_step hmove fun op hop => by rw [h.senders t op hop]; simp
  have hnone : (none : Option τ) ≠ some t := by simp
  refine ⟨?_, hcons, fun hhead => ?_, fun hact howes => ?_,
    fun u hu => Function.update_of_ne hu _ _⟩
  · refine
      { ring := ring_step hmove h.ring, senders := fun u op hop => ?_, receiver := fun op hop => ?_,
        current := ?_ }
    · by_cases hut : u = t
      · subst hut
        simp only [Function.update_self] at hop
        rcases opOf_step hmove hop with hold | hact
        · exact h.senders u op hold
        · exact hcall op hact
      · simp only [Function.update_of_ne (fun he => hut (Option.some.inj he))] at hop
        exact h.senders u op hop
    · simp only [Function.update_of_ne hnone] at hop
      exact h.receiver op hop
    · simp only [Function.update_of_ne hnone]
      refine h.current.frame (fun r hr => ?_) fun r hr => ?_
      · obtain ⟨op, hop, rfl⟩ := op_of_holdsTail hr
        rw [h.receiver op hop, hcons]
      · obtain ⟨op, hop, rfl⟩ := op_of_holdsHead hr
        rw [h.receiver op hop, hcons]
  · simp only [Function.update_self]
    exact owes_of_head_moved hmove hhead
  · simp only [Function.update_self]
    exact owes_step hmove h.ring hact howes

/-- The receiver's step. -/
theorem LinkInv.receiverStep (h : LinkInv s) (hs : sysStep variant s none act = some (s', e))
    (hcall : ∀ op, act = .call op → op.side = .cons) :
    LinkInv s' ∧ s'.queue.prod = s.queue.prod ∧
      (Failed (s'.pc none) → ¬ Visible s'.queue) ∧
      ∀ t, s'.pc (some t) = s.pc (some t) := by
  obtain ⟨q', buf', pc', rfl, hmove⟩ := sysStep_moves hs
  have hprod : q'.bound .prod = s.queue.bound .prod :=
    bound_step hmove fun op hop => by rw [h.receiver op hop]; simp
  have hsome : ∀ t : τ, some t ≠ none := fun t => by simp
  refine ⟨?_, hprod, fun hnew => ?_, fun t => Function.update_of_ne (hsome t) pc' s.pc⟩
  · refine
      { ring := ring_step hmove h.ring, senders := fun u op hop => ?_, receiver := fun op hop => ?_,
        current := ?_ }
    · simp only [Function.update_of_ne (hsome u)] at hop
      exact h.senders u op hop
    · simp only [Function.update_self] at hop
      rcases opOf_step hmove hop with hold | hact
      · exact h.receiver op hold
      · exact hcall op hact
    · simp only [Function.update_self]
      exact h.current.ownStep hmove
  · simp only [Function.update_self] at hnew
    exact not_visible_of_fails hmove h.current h.receiver hnew

end LinkSteps

/-! ### The notification -/

/-- **The wake-up invariant.** -/
structure BellInv (w : Bell τ) : Prop where
  links : ∀ l, LinkInv (w.link l)
  /-- the receiver is in a dequeue only inside the loop over that queue -/
  resting : ∀ l, w.receiver ≠ .draining l → (w.link l).pc none = .idle
  awake : ∀ l, Visible (w.link l).queue → w.pending = true ∨ AttemptAhead w l ∨ SenderDue w l

section Bell

variable {variant : Option τ → CasVariant} {w w' : Bell τ} {l : Link} {t : τ} {act : Act}

theorem Bell.onLink_eq_some {u : Option τ} (h : w.onLink variant l u act = some w') :
    ∃ s' e, sysStep variant (w.link l) u act = some (s', e) ∧ w' = w.setLink l s' := by
  obtain ⟨r, hr, rfl⟩ := Option.map_eq_some_iff.mp h
  exact ⟨r.1, r.2, hr, rfl⟩

omit [DecidableEq τ] in
@[simp] theorem Bell.setLink_link (w : Bell τ) (l : Link) (s : Sys (Option τ)) :
    (w.setLink l s).link l = s :=
  Function.update_self ..

omit [DecidableEq τ] in
theorem Bell.setLink_link_ne (w : Bell τ) {l l' : Link} (s : Sys (Option τ)) (h : l' ≠ l) :
    (w.setLink l s).link l' = w.link l' :=
  Function.update_of_ne h _ _

omit [DecidableEq τ] in
/-- An attempt ahead depends on the receiver and its place in that queue only. -/
theorem AttemptAhead.congr (h : AttemptAhead w l) (hreceiver : w'.receiver = w.receiver)
    (hpc : ¬ Failed ((w.link l).pc none) → ¬ Failed ((w'.link l).pc none)) : AttemptAhead w' l := by
  unfold AttemptAhead at h ⊢
  rw [hreceiver]
  cases hr : w.receiver with
  | waiting => rw [hr] at h; exact h
  | registering => trivial
  | draining r =>
      rw [hr] at h
      exact h.imp (fun hh => ⟨hh.1, hpc hh.2⟩) fun hh => hh

theorem BellInv.senderStep (h : BellInv w) {s' : Sys (Option τ)} {e : Event}
    (hs : sysStep variant (w.link l) (some t) act = some (s', e))
    (hcall : ∀ op, act = .call op → op.side = .prod) {pending : Bool}
    (hpending : w.pending = true → pending = true)
    (hleave : act = .leave → Owes ((w.link l).pc (some t)) → pending = true) :
    BellInv { w.setLink l s' with pending := pending } := by
  obtain ⟨hinv, hcons, hmoved, howes, hothers⟩ := (h.links l).senderStep hs hcall
  have hnone : s'.pc none = (w.link l).pc none := hothers none (by simp)
  refine ⟨fun l' => ?_, fun l' hl' => ?_, fun l' hvis => ?_⟩
  · by_cases hl : l' = l
    · subst hl
      simpa using hinv
    · show LinkInv ((w.setLink l s').link l')
      rw [Bell.setLink_link_ne _ _ hl]
      exact h.links l'
  · by_cases hl : l' = l
    · subst hl
      show ((w.setLink l' s').link l').pc none = .idle
      rw [Bell.setLink_link, hnone]
      exact h.resting l' hl'
    · show ((w.setLink l s').link l').pc none = .idle
      rw [Bell.setLink_link_ne _ _ hl]
      exact h.resting l' hl'
  · by_cases hl : l' = l
    · subst hl
      simp only [Bell.setLink_link] at hvis
      -- either this sender moved the head, or the message was visible before
      by_cases hhead : s'.queue.prod.head = (w.link l').queue.prod.head
      · have hvis' : Visible (w.link l').queue := by
          unfold Visible at hvis ⊢
          rw [← hhead, ← hcons]
          exact hvis
        rcases h.awake l' hvis' with hp | ha | ⟨u, hu⟩
        · exact Or.inl (hpending hp)
        · exact Or.inr (Or.inl (ha.congr rfl fun hf => by
            show ¬ Failed (((w.setLink l' s').link l').pc none)
            rw [Bell.setLink_link, hnone]
            exact hf))
        · by_cases hut : u = t
          · subst hut
            by_cases hact : act = .leave
            · exact Or.inl (hleave hact hu)
            · refine Or.inr (Or.inr ⟨u, ?_⟩)
              show Owes (((w.setLink l' s').link l').pc (some u))
              rw [Bell.setLink_link]
              exact howes hact hu
          · refine Or.inr (Or.inr ⟨u, ?_⟩)
            show Owes (((w.setLink l' s').link l').pc (some u))
            rw [Bell.setLink_link, hothers (some u) (by simpa using hut)]
            exact hu
      · refine Or.inr (Or.inr ⟨t, ?_⟩)
        show Owes (((w.setLink l' s').link l').pc (some t))
        rw [Bell.setLink_link]
        exact hmoved hhead
    · have hlink : ({ w.setLink l s' with pending := pending } : Bell τ).link l' = w.link l' :=
        Bell.setLink_link_ne _ _ hl
      rw [hlink] at hvis
      rcases h.awake l' hvis with hp | ha | ⟨u, hu⟩
      · exact Or.inl (hpending hp)
      · exact Or.inr (Or.inl (ha.congr rfl fun hf => by rw [hlink]; exact hf))
      · exact Or.inr (Or.inr ⟨u, by rw [hlink]; exact hu⟩)

/-- The receiver's step inside the loop over `l`, after which it is at `receiver'`. -/
theorem BellInv.receiverStep (h : BellInv w) {s' : Sys (Option τ)} {e : Event}
    (hin : w.receiver = .draining l)
    (hs : sysStep variant (w.link l) none act = some (s', e))
    (hcall : ∀ op, act = .call op → op.side = .cons) {receiver' : Activation}
    (hnext : receiver' = .draining l ∨ (receiver' = l.after ∧ s'.pc none = .idle ∧
      Failed ((w.link l).pc none) ∧ s'.queue = (w.link l).queue)) :
    BellInv { w.setLink l s' with receiver := receiver' } := by
  obtain ⟨hinv, hprod, hfail, hothers⟩ := (h.links l).receiverStep hs hcall
  have hlink : ∀ l', l' ≠ l → (({ w.setLink l s' with receiver := receiver' } : Bell τ)).link l'
      = w.link l' := fun l' hl => Bell.setLink_link_ne _ _ hl
  have hself : (({ w.setLink l s' with receiver := receiver' } : Bell τ)).link l = s' :=
    Bell.setLink_link _ _ _
  have hdue : ∀ l', SenderDue w l' →
      SenderDue ({ w.setLink l s' with receiver := receiver' } : Bell τ) l' := by
    rintro l' ⟨t, ht⟩
    refine ⟨t, ?_⟩
    by_cases hl : l' = l
    · subst hl
      rw [hself, hothers t]
      exact ht
    · rw [hlink l' hl]
      exact ht
  refine ⟨fun l' => ?_, fun l' hl' => ?_, fun l' hvis => ?_⟩
  · by_cases hl : l' = l
    · subst hl
      rw [hself]
      exact hinv
    · rw [hlink l' hl]
      exact h.links l'
  · by_cases hl : l' = l
    · subst hl
      rw [hself]
      rcases hnext with rfl | ⟨_, hidle, _⟩
      · exact absurd rfl hl'
      · exact hidle
    · rw [hlink l' hl]
      refine h.resting l' fun he => hl ?_
      rw [hin] at he
      injection he with he
      exact he.symm
  · by_cases hl : l' = l
    · subst hl
      rw [hself] at hvis
      rcases hnext with rfl | ⟨_, _, hfailed, hqueue⟩
      · refine Or.inr (Or.inl (Or.inl ⟨rfl, ?_⟩))
        rw [hself]
        exact fun hf => hfail hf hvis
      · -- the loop ends: nothing was ahead on this queue before either
        rw [hqueue] at hvis
        refine (h.awake l' hvis).imp (fun hp => hp) fun hor => Or.inr ?_
        refine hdue l' (hor.resolve_left fun ha => ?_)
        simp only [AttemptAhead, hin] at ha
        rcases ha with ⟨_, hnot⟩ | ⟨hr, he⟩
        · exact hnot hfailed
        · rw [hr] at he
          cases he
    · rw [hlink l' hl] at hvis
      rcases h.awake l' hvis with hp | ha | hd
      · exact Or.inl hp
      · -- only the event queue is still ahead of the loop over the responses
        simp only [AttemptAhead, hin] at ha
        rcases ha with ⟨he, _⟩ | ⟨rfl, rfl⟩
        · exact absurd he.symm hl
        · refine Or.inr (Or.inl ?_)
          rcases hnext with rfl | ⟨rfl, _⟩
          · exact Or.inr ⟨rfl, rfl⟩
          · refine Or.inl ⟨rfl, ?_⟩
            rw [hlink .event hl, h.resting .event (by rw [hin]; simp)]
            rintro ⟨op, ret, out, hpc, _⟩
            cases hpc
      · exact Or.inr (Or.inr (hdue l' hd))

theorem not_failed_idle : ¬ Failed .idle := by
  rintro ⟨op, ret, out, hpc, _⟩
  cases hpc

/-- Leaving a call changes nothing but where the thread is. -/
theorem sysStep_leave {u : Option τ} {s s' : Sys (Option τ)} {e : Event}
    (hs : sysStep variant s u .leave = some (s', e)) :
    (∃ op ret out, s.pc u = .returned op ret out) ∧ s'.queue = s.queue ∧ s'.pc u = .idle := by
  obtain ⟨q', buf', pc', rfl, hmove⟩ := sysStep_moves hs
  generalize s.pc u = pc at hmove
  cases hmove with
  | leave op ret out => exact ⟨⟨op, ret, out, rfl⟩, rfl, Function.update_self ..⟩

/-- **The step lemma.** -/
theorem BellInv.step (h : BellInv w) {l : BellAct τ} (hs : bellStep variant w l = some w') :
    BellInv w' := by
  cases l with
  | deviceEventTx t msg =>
      simp only [bellStep] at hs
      split at hs
      · obtain ⟨s', e, hstep, rfl⟩ := Bell.onLink_eq_some hs
        refine h.senderStep hstep (fun op hop => ?_) id fun hact => by cases hact
        cases hop
        rfl
      · cases hs
  | driverRpcReply t msg =>
      simp only [bellStep] at hs
      split at hs
      · obtain ⟨s', e, hstep, rfl⟩ := Bell.onLink_eq_some hs
        refine h.senderStep hstep (fun op hop => ?_) id fun hact => by cases hact
        cases hop
        rfl
      · cases hs
  | send l t word =>
      obtain ⟨s', e, hstep, rfl⟩ := Bell.onLink_eq_some hs
      exact h.senderStep hstep (fun op hop => by cases hop) id fun hact => by cases hact
  | ring l t =>
      simp only [bellStep] at hs
      split at hs
      · cases hs
      · rename_i ret hret
        obtain ⟨w₁, hw₁, rfl⟩ := Option.map_eq_some_iff.mp hs
        obtain ⟨s', e, hstep, rfl⟩ := Bell.onLink_eq_some hw₁
        refine h.senderStep hstep (fun op hop => by cases hop) (fun hp => ?_) fun _ howes => ?_
        · show (if ret = 0 then true else w.pending) = true
          rw [hp, ite_self]
        · obtain ⟨⟨op, ret', out, hpc⟩, _⟩ := sysStep_leave hstep
          simp only [Bell.ret, hpc, Option.some.injEq] at hret
          rw [hpc] at howes
          rcases howes with hfly | ⟨op', out', he⟩
          · exact hfly.elim
          · cases he
            rw [← hret]
            rfl
  | take =>
      simp only [bellStep] at hs
      split at hs
      · rename_i hcond
        cases hs
        refine ⟨h.links, fun l _ => ?_, fun l _ => Or.inr (Or.inl trivial)⟩
        exact h.resting l (by rw [hcond.1]; simp)
      · cases hs
  | register =>
      simp only [bellStep] at hs
      split at hs
      · rename_i hreg
        cases hs
        have hidle : ∀ l, (w.link l).pc none = .idle := fun l =>
          h.resting l (by rw [hreg]; simp)
        refine ⟨h.links, fun l _ => hidle l, fun l _ => Or.inr (Or.inl ?_)⟩
        cases l with
        | response => exact Or.inl ⟨rfl, by rw [hidle]; exact not_failed_idle⟩
        | event => exact Or.inr ⟨rfl, rfl⟩
      · cases hs
  | dequeue =>
      simp only [bellStep] at hs
      split at hs
      · rename_i l hin
        obtain ⟨s', e, hstep, rfl⟩ := Bell.onLink_eq_some hs
        have hcall : ∀ op, Act.call l.dequeue = .call op → op.side = .cons := by
          intro op hop
          cases hop
          cases l <;> rfl
        have hnext := h.receiverStep hin hstep hcall (Or.inl rfl)
        rw [← hin] at hnext
        exact hnext
      · cases hs
  | receive word =>
      simp only [bellStep] at hs
      split at hs
      · rename_i l hin
        obtain ⟨s', e, hstep, rfl⟩ := Bell.onLink_eq_some hs
        have hnext := h.receiverStep hin hstep (fun op hop => by cases hop) (Or.inl rfl)
        rw [← hin] at hnext
        exact hnext
      · cases hs
  | handle =>
      simp only [bellStep] at hs
      split at hs
      · rename_i l hin
        split at hs
        · cases hs
        · rename_i ret hret
          obtain ⟨w₁, hw₁, rfl⟩ := Option.map_eq_some_iff.mp hs
          obtain ⟨s', e, hstep, rfl⟩ := Bell.onLink_eq_some hw₁
          obtain ⟨⟨op, ret', out, hpc⟩, hqueue, hidle⟩ := sysStep_leave hstep
          simp only [Bell.ret, hpc, Option.some.injEq] at hret
          refine h.receiverStep hin hstep (fun op hop => by cases hop) ?_
          by_cases hzero : ret = 0
          · exact Or.inl (by rw [if_pos hzero])
          · refine Or.inr ⟨by rw [if_neg hzero], hidle, ?_, hqueue⟩
            rw [hpc]
            exact ⟨op, ret', out, rfl, by rw [hret]; exact hzero⟩
      · cases hs

theorem bellInv_of_reachable (h : (bellLts variant).Reachable w) : BellInv w := by
  refine h.invariant (fun w hw => ?_) fun _ _ _ _ hi hs => hi.step hs
  obtain ⟨hlinks, _, _⟩ := hw
  refine ⟨fun l => ?_, fun l _ => ?_, fun l hvis => ?_⟩
  · rw [hlinks]
    exact linkInv_initial
  · rw [hlinks]
    rfl
  · rw [hlinks] at hvis
    exact absurd rfl hvis

/-- **No wake-up is lost.**  Whenever a queue holds a committed message that nobody has claimed, the
doorbell is pending, or the receiver will still look at that queue in this activation, or a sender
on that queue has its commit or its doorbell still to perform. -/
theorem no_lost_wakeup (h : (bellLts variant).Reachable w) (l : Link)
    (hvis : Visible (w.link l).queue) : w.pending = true ∨ AttemptAhead w l ∨ SenderDue w l :=
  (bellInv_of_reachable h).awake l hvis

end Bell

/-- The steps of a sender's event, from call to doorbell, its words in order. -/
def eventScript : List (BellAct Unit) :=
  .deviceEventTx () (fun _ => 1#64) ::
    (List.replicate 4 none ++ (List.finRange 4).map some ++ List.replicate 4 none).map
      (fun word => .send .event () word) ++ [.ring .event ()]

/-- An empty system whose receiver waits for the doorbell. -/
def quietBell : Bell Unit := ⟨fun _ => .initial, false, .waiting⟩

/-- `no_lost_wakeup` after one event: the message is visible and the doorbell pending. -/
theorem no_lost_wakeup_oneEvent :
    Visible ((play (bellStep fun _ => .user) quietBell eventScript).link .event).queue ∧
      ((play (bellStep fun _ => .user) quietBell eventScript).pending = true ∨
        AttemptAhead (play (bellStep fun _ => .user) quietBell eventScript) .event ∨
        SenderDue (play (bellStep fun _ => .user) quietBell eventScript) .event) := by
  have hinit : (bellLts fun _ => .user).Reachable quietBell :=
    .init ⟨fun _ => rfl, rfl, Or.inl rfl⟩
  have hreach : (bellLts fun _ => .user).Reachable
      (play (bellStep fun _ => .user) quietBell eventScript) :=
    hinit.play (fun _ _ _ hs => hs) eventScript
  have hvis :
      Visible ((play (bellStep fun _ => .user) quietBell eventScript).link .event).queue := by
    unfold Visible
    decide +kernel
  exact ⟨hvis, no_lost_wakeup hreach .event hvis⟩

end TiiSel4Vm.Doorbell
