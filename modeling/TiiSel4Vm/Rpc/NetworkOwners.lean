import Mathlib.Data.Finset.Option
import TiiSel4Vm.Lib.Exchange
import TiiSel4Vm.Rpc.Network

/-!
# Who has a message

The abstract side of the network is an exchange: threads own messages and pass them on through
queues in single transfers.  An operation of the code takes effect at its compare-and-swap of the
tail; every other step of it moves nothing.

* `Net.depot` — the exchange that a state of the network stands for;
* `Net.transfer` — the transfer that a step makes, if any;
* `NetInv.refines` — the step relates the two;
* `NetInv.step` — what the network keeps, step by step.
-/

namespace TiiSel4Vm.RpcQueue

open TiiSel4Vm.Transition
open TiiSel4Vm.Exchange (Depot Transfer exchangeLts Exclusive)

variable {κ τ : Type}

/-- The message of an enqueue that has not acquired an entry, or has failed. -/
def Pc.keeps : Pc → Option (Fin rpcmsgBufferSize)
  | .acquiring op _ => op.message
  | .returned op ret _ => if ret = 0 then none else op.message
  | _ => none

/-- The message that is with the thread inside its call: the one it cannot enqueue yet, or the one
at the position it acquired for dequeueing. -/
def Net.owned (n : Net κ τ) (t : τ) : Option (Fin rpcmsgBufferSize) :=
  (n.call t).bind fun c =>
    if c.2.pastOp = some .rpcDequeue then (n.hist c.1).passed ((n.hist c.1).place t)
    else c.2.keeps

/-- The messages of the producers from the consumers' tail on. -/
def Hist.queued (h : Hist τ) : List (Fin rpcmsgBufferSize) :=
  ((h.acquirers .prod).drop (h.acquired .cons)).filterMap fun a => a.2.message

/-- What the network stands for. -/
def Net.depot (n : Net κ τ) : Depot κ τ (Fin rpcmsgBufferSize) where
  queue l := (n.hist l).queued
  holds t := n.hand t ∪ (n.owned t).toFinset

/-- The transfer of an acquisition. -/
def acquisition (t : τ) (l : κ) (h : Hist τ) :
    Op → Option (Transfer κ τ (Fin rpcmsgBufferSize))
  | .rpcEnqueue msg => some (.send t l msg)
  | _ => (h.passed (h.acquired .cons)).map (.receive t l)

/-- The transfer of a step: the `set_bit` of a lend, reclaiming, and the compare-and-swap that
acquires. -/
def Net.transfer (n : Net κ τ) : NetAct κ τ → Option (Transfer κ τ (Fin rpcmsgBufferSize))
  | .mark t =>
      match n.lending t with
      | .marking id => some (.issue t id)
      | .idle => none
  | .reclaim t msg => some (.retire t msg)
  | .access t =>
      match n.call t with
      | some (l, .acquiring op (.cas ot)) =>
          if ((n.queue l).bound op.side).tail = ot then acquisition t l (n.hist l) op else none
      | _ => none
  | _ => none

/-- Accesses lend and reclaim nothing. -/
theorem transfer_access {t : τ} {n : Net κ τ} (u : τ) (a : Fin rpcmsgBufferSize) :
    n.transfer (.access t) ≠ some (.issue u a) ∧ n.transfer (.access t) ≠ some (.retire u a) := by
  simp only [Net.transfer]
  split
  · rename_i l op ot _
    split
    · cases op <;> simp [acquisition]
    · simp
  · simp

/-- **The invariant of the network.** -/
structure NetInv [DecidableEq κ] [Fintype τ] (n : Net κ τ) : Prop where
  queues : ∀ l, Inv (n.world l) ∧ PointerInv (n.world l)
  covers : CoversBuffers n.state
  exclusive : Exclusive n.depot
  lent : ∀ id, Lent n.state id ↔ ∃ P, n.depot.Has P id
  /-- the message of a call is no longer, or not yet, in the hand -/
  aside : ∀ t id, n.owned t = some id → id ∉ n.hand t
  /-- on its way a message keeps the words it was enqueued with -/
  intact : ∀ id, Lent n.state id → (∀ t, id ∉ n.hand t) → n.buffer id = n.left id

/-! ### Queues of messages -/

section Queued

variable {h h' : Hist τ}

theorem Hist.queued_of_acquirers (hp : h'.acquirers = h.acquirers) : h'.queued = h.queued := by
  rw [Hist.queued, Hist.queued, Hist.acquired, Hist.acquired, hp]

variable [DecidableEq τ]

/-- A producer's acquisition puts its message last. -/
theorem queued_record_enqueue {t : τ} {msg : Fin rpcmsgBufferSize}
    (hle : h.acquired .cons ≤ h.acquired .prod) :
    (h.record t (.acquired (.rpcEnqueue msg))).queued = h.queued ++ [msg] := by
  have hp : (h.record t (.acquired (.rpcEnqueue msg))).acquirers .prod
      = h.acquirers .prod ++ [(t, .rpcEnqueue msg)] := by
    simp [Hist.record, Op.side]
  have hc : (h.record t (.acquired (.rpcEnqueue msg))).acquired .cons = h.acquired .cons :=
    record_acquired_ne _ (by simp [Op.side])
  rw [Hist.queued, hc, hp, List.drop_append_of_le_length hle, List.filterMap_append]
  rfl

/-- A consumer's acquisition takes the first message. -/
theorem queued_record_dequeue {t : τ} {msg : Fin rpcmsgBufferSize}
    (hlt : h.acquired .cons < h.acquired .prod) (hm : h.passed (h.acquired .cons) = some msg) :
    h.queued = msg :: (h.record t (.acquired .rpcDequeue)).queued := by
  have hp : (h.record t (.acquired .rpcDequeue)).acquirers .prod = h.acquirers .prod := by
    simp [Hist.record, Op.side]
  have hc : (h.record t (.acquired .rpcDequeue)).acquired .cons = h.acquired .cons + 1 :=
    record_acquired_same _
  have hat : (h.acquirers .prod)[h.acquired .cons]? = some (h.acquirers .prod)[h.acquired .cons] :=
    List.getElem?_eq_getElem hlt
  have hmsg : (h.acquirers .prod)[h.acquired .cons].2.message = some msg := by
    rw [Hist.passed, hat] at hm
    exact hm
  rw [Hist.queued, Hist.queued, hc, hp, List.drop_eq_getElem_cons hlt, List.filterMap_cons, hmsg]

end Queued

/-! ### What an access does to the message of a call -/

/-- An access acquires an entry, or leaves the message of the call where it is. -/
theorem access_kinds {v : CasVariant} {q q' : Queue} {buf buf' : RpcMsgBuffer} {pc pc' : Pc}
    {e : Event} (h : Moves v q buf pc (.step none) q' buf' pc' e) (hab : pc' ≠ .aborted) :
    (∃ op ot, pc = .acquiring op (.cas ot) ∧ (q.bound op.side).tail = ot ∧
        pc' = .body op ot.pos op.body ∧ e = .acquired op) ∨
      ((∀ op ot, pc = .acquiring op (.cas ot) → (q.bound op.side).tail ≠ ot) ∧
        pc'.pastOp = pc.pastOp ∧ pc'.keeps = pc.keeps ∧ ∀ op, e ≠ .acquired op) := by
  cases h with
  | acquire op ot heq => exact Or.inl ⟨op, ot, rfl, heq, rfl, rfl⟩
  | @body op entry b word _ _ r hbody =>
      refine Or.inr ⟨by simp, ?_, ?_, by simp⟩
      · cases r with
        | more b' => rfl
        | finished out => rfl
        | abort => exact absurd rfl hab
      · cases r <;> rfl
  | acquireLost op ot hne =>
      refine Or.inr ⟨?_, rfl, rfl, fun o => by cases v <;> simp [casEvent]⟩
      rintro o m ho
      cases ho
      exact hne
  | commitLost op out oh tl hne =>
      exact Or.inr ⟨by simp, rfl, rfl, fun o => by cases v <;> simp [casEvent]⟩
  | _ => exact Or.inr ⟨by simp, rfl, rfl, by simp⟩

/-! ### One step, transfer by transfer -/

section Owned

variable {n n' : Net κ τ} {t : τ} {l : κ}

theorem owned_of_idle (h : n.call t = none) : n.owned t = none := by
  simp [Net.owned, h]

theorem owned_of_call {pc : Pc} (h : n.call t = some (l, pc)) :
    n.owned t = if pc.pastOp = some .rpcDequeue then (n.hist l).passed ((n.hist l).place t)
      else pc.keeps := by
  simp [Net.owned, h]

/-- The message of a call depends on the call and on the history of its queue only. -/
theorem owned_congr (hc : n'.call t = n.call t)
    (hh : ∀ l pc, n.call t = some (l, pc) → (n'.hist l).place t = (n.hist l).place t ∧
      ∀ m, (n.hist l).passed ((n.hist l).place t) = some m →
        (n'.hist l).passed ((n.hist l).place t) = some m)
    (hsome : ∀ l pc, n.call t = some (l, pc) → pc.pastOp = some .rpcDequeue →
      ∃ m, (n.hist l).passed ((n.hist l).place t) = some m) : n'.owned t = n.owned t := by
  cases hcall : n.call t with
  | none => rw [owned_of_idle hcall, owned_of_idle (hc.trans hcall)]
  | some c =>
      obtain ⟨l, pc⟩ := c
      rw [owned_of_call hcall, owned_of_call (hc.trans hcall)]
      by_cases hpast : pc.pastOp = some .rpcDequeue
      · rw [if_pos hpast, if_pos hpast]
        obtain ⟨hplace, hpassed⟩ := hh l pc hcall
        obtain ⟨m, hm⟩ := hsome l pc hcall hpast
        rw [hplace, hm]
        exact hpassed m hm
      · rw [if_neg hpast, if_neg hpast]

theorem owned_eq (hc : n'.call t = n.call t) (hh : n'.hist = n.hist) : n'.owned t = n.owned t := by
  rw [Net.owned, Net.owned, hc, hh]

theorem depot_ext {d d' : Depot κ τ (Fin rpcmsgBufferSize)} (hq : ∀ l, d.queue l = d'.queue l)
    (hh : ∀ t, d.holds t = d'.holds t) : d = d' := by
  obtain ⟨queue, holds⟩ := d
  obtain ⟨queue', holds'⟩ := d'
  obtain rfl : queue = queue' := funext hq
  obtain rfl : holds = holds' := funext hh
  rfl

variable [DecidableEq τ] {msg : Fin rpcmsgBufferSize}

theorem owned_update_ne {u : τ} {c : Option (κ × Pc)} {hand : τ → Finset (Fin rpcmsgBufferSize)}
    {left : Fin rpcmsgBufferSize → RpcMsg} (hu : u ≠ t) :
    ({ n with call := Function.update n.call t c, hand := hand, left := left } : Net κ τ).owned u
      = n.owned u :=
  owned_eq (Function.update_of_ne hu _ _) rfl

/-- The `set_bit` of a lend: the thread has one message more. -/
theorem depot_mark (state : Bitmap) (lending : τ → LendPc) :
    ({ n with
        state := state
        lending := lending
        hand := Function.update n.hand t (insert msg (n.hand t)) } : Net κ τ).depot
      = n.depot.give t msg := by
  refine depot_ext (fun r => rfl) fun u => ?_
  show Function.update n.hand t _ u ∪ (n.owned u).toFinset
    = Function.update n.depot.holds t _ u
  by_cases hu : u = t
  · subst hu
    rw [Function.update_self, Function.update_self, Finset.insert_union]
    rfl
  · rw [Function.update_of_ne hu, Function.update_of_ne hu]
    rfl

/-- Reclaiming: the thread has one message less. -/
theorem depot_reclaim (hidle : n.call t = none) (state : Bitmap) :
    ({ n with
        state := state
        hand := Function.update n.hand t ((n.hand t).erase msg) } : Net κ τ).depot
      = n.depot.strip t msg := by
  refine depot_ext (fun r => rfl) fun u => ?_
  show Function.update n.hand t _ u ∪ (n.owned u).toFinset
    = Function.update n.depot.holds t _ u
  by_cases hu : u = t
  · subst hu
    rw [Function.update_self, Function.update_self]
    simp [Net.depot, owned_of_idle hidle]
  · rw [Function.update_of_ne hu, Function.update_of_ne hu]
    rfl

/-- A call or a return hands a message between the hand and the call of one thread. -/
theorem depot_handed (hother : ∀ u, u ≠ t → n'.call u = n.call u ∧ n'.hand u = n.hand u)
    (hhist : n'.hist = n.hist)
    (hown : n'.hand t ∪ (n'.owned t).toFinset = n.hand t ∪ (n.owned t).toFinset) :
    n'.depot = n.depot := by
  refine depot_ext (fun r => ?_) fun u => ?_
  · show (n'.hist r).queued = _
    rw [hhist]
    rfl
  · show n'.hand u ∪ (n'.owned u).toFinset = n.hand u ∪ (n.owned u).toFinset
    by_cases hu : u = t
    · subst hu
      exact hown
    · obtain ⟨hc, hh⟩ := hother u hu
      rw [owned_eq hc hhist, hh]

end Owned

section Refines

variable [DecidableEq κ] [Fintype τ] {n n' : Net κ τ} {t : τ} {l : κ}

/-- A thread past the acquisition of a dequeue has the message of its position. -/
theorem NetInv.passed_of_past (hi : NetInv n) {pc : Pc} (hcall : n.call t = some (l, pc))
    (hpast : pc.pastOp = some .rpcDequeue) :
    ∃ m, (n.hist l).passed ((n.hist l).place t) = some m := by
  obtain ⟨hinv, hptr⟩ := hi.queues l
  have hpc : (n.world l).sys.pc t = pc := Net.pc_of_call hcall
  have hacq := hptr.places.acquirer t .rpcDequeue (by rw [hpc]; exact hpast)
  have hlt : (n.hist l).place t < (n.hist l).acquired .cons :=
    (List.getElem?_eq_some_iff.mp hacq).1
  have hcons : (n.hist l).acquired .cons ≤ (n.hist l).acquired .prod := by
    obtain ⟨_, h2, h3, _⟩ := hinv.positions
    exact le_trans h2 h3
  obtain ⟨_, m, _, hm⟩ := hptr.passed_of_lt (lt_of_lt_of_le hlt hcons)
  exact ⟨m, hm⟩

/-- What a returned operation hands to its caller is what was with the call. -/
theorem NetInv.handed_eq (hi : NetInv n) {op : Op} {ret : ℤ} {out : Out}
    (hcall : n.call t = some (l, .returned op ret out)) :
    handed (n.hand t) op ret out = n.hand t ∪ (n.owned t).toFinset := by
  obtain ⟨_, hptr⟩ := hi.queues l
  have hpc : (n.world l).sys.pc t = .returned op ret out := Net.pc_of_call hcall
  have hown := hptr.pointer t
  simp only [PointerHolds, hpc] at hown
  obtain ⟨hop, hout⟩ := hown
  rw [owned_of_call hcall]
  cases op with
  | rpcEnqueue m =>
      by_cases hret : ret = 0
      · simp [handed, hret, Pc.pastOp, Pc.keeps]
      · simp [handed, hret, Pc.pastOp, Pc.keeps, Op.message, Finset.union_comm]
  | rpcDequeue =>
      by_cases hret : ret = 0
      · obtain ⟨m, rfl, hm⟩ := hout hret rfl
        have hm' : (n.hist l).passed ((n.hist l).place t) = some m := hm
        simp [handed, hret, Pc.pastOp, hm', Finset.union_comm]
      · cases out <;> simp [handed, hret, Pc.pastOp, Pc.keeps, Op.message]
  | _ => exact hop.elim

variable [DecidableEq τ] {variant : τ → CasVariant}

/-- The step makes its transfer; a step without one moves nothing. -/
def Refines (n : Net κ τ) (act : NetAct κ τ) (n' : Net κ τ) : Prop :=
  (n.transfer act = none ∧ n'.depot = n.depot) ∨
    ∃ x, n.transfer act = some x ∧ Exchange.Step n.depot x n'.depot

section Access

variable {q : Queue} {buf : RpcMsgBuffer} {pc pc' : Pc} {e : Event} {op : Op}

omit [Fintype τ] in
theorem afterAccess_hist :
    (n.afterAccess l t q buf pc' e).hist l = (n.hist l).record t e :=
  Function.update_self ..

omit [Fintype τ] in
theorem afterAccess_hist_ne {r : κ} (hr : r ≠ l) :
    (n.afterAccess l t q buf pc' e).hist r = n.hist r :=
  Function.update_of_ne hr _ _

omit [Fintype τ] in
theorem afterAccess_call : (n.afterAccess l t q buf pc' e).call t = some (l, pc') :=
  Function.update_self ..

/-- The messages of the other threads' calls stay with them. -/
theorem NetInv.afterAccess_other (hi : NetInv n) {u : τ} (hu : u ≠ t) :
    (n.afterAccess l t q buf pc' e).owned u = n.owned u := by
  refine owned_congr (Function.update_of_ne hu _ _) (fun r pcu _ => ?_) fun r pcu hcu hpast =>
    hi.passed_of_past hcu hpast
  by_cases hr : r = l
  · subst hr
    rw [afterAccess_hist]
    refine ⟨?_, fun m hm => (extends_record (n.hist r) t e).passed hm⟩
    cases e <;> simp [Hist.record, Function.update_of_ne hu]
  · rw [afterAccess_hist_ne hr]
    exact ⟨rfl, fun m hm => hm⟩

/-- The message of `t`'s own call, when no entry was acquired. -/
theorem NetInv.afterAccess_self (hi : NetInv n) (hcall : n.call t = some (l, pc))
    (hpast : pc'.pastOp = pc.pastOp) (hkeeps : pc'.keeps = pc.keeps)
    (he : ∀ op, e ≠ .acquired op) : (n.afterAccess l t q buf pc' e).owned t = n.owned t := by
  rw [owned_of_call afterAccess_call, owned_of_call hcall, hpast, hkeeps, afterAccess_hist]
  by_cases hp : pc.pastOp = some .rpcDequeue
  · rw [if_pos hp, if_pos hp]
    obtain ⟨m, hm⟩ := hi.passed_of_past hcall hp
    have hplace : ((n.hist l).record t e).place t = (n.hist l).place t := by
      cases e with
      | acquired op => exact absurd rfl (he op)
      | _ => rfl
    rw [hplace, hm]
    exact (extends_record (n.hist l) t e).passed hm
  · rw [if_neg hp, if_neg hp]

omit [Fintype τ] in
/-- The message of `t`'s own call, when it acquired an entry for dequeueing. -/
theorem afterAccess_dequeue {m : Fin rpcmsgBufferSize} (hpast : pc'.pastOp = some .rpcDequeue)
    (hm : (n.hist l).passed ((n.hist l).acquired .cons) = some m) :
    (n.afterAccess l t q buf pc' (.acquired .rpcDequeue)).owned t = some m := by
  rw [owned_of_call afterAccess_call, if_pos hpast, afterAccess_hist]
  have hplace : ((n.hist l).record t (.acquired .rpcDequeue)).place t = (n.hist l).acquired .cons :=
    Function.update_self ..
  rw [hplace]
  exact (extends_record (n.hist l) t (.acquired .rpcDequeue)).passed hm

omit [Fintype τ] in
/-- Without an acquisition the queues hold the same messages. -/
theorem afterAccess_queued (he : ∀ op, e ≠ .acquired op) (r : κ) :
    ((n.afterAccess l t q buf pc' e).hist r).queued = (n.hist r).queued := by
  by_cases hr : r = l
  · subst hr
    rw [afterAccess_hist]
    refine Hist.queued_of_acquirers ?_
    cases e with
    | acquired op => exact absurd rfl (he op)
    | _ => rfl
  · rw [afterAccess_hist_ne hr]

/-- An enqueue that acquires sends its message. -/
theorem NetInv.depot_sent (hi : NetInv n) {msg : Fin rpcmsgBufferSize}
    (howned : n.owned t = some msg) (hpc' : pc'.pastOp = some (.rpcEnqueue msg))
    (hkeeps : pc'.keeps = none) (hle : (n.hist l).acquired .cons ≤ (n.hist l).acquired .prod) :
    (n.afterAccess l t q buf pc' (.acquired (.rpcEnqueue msg))).depot
      = (n.depot.strip t msg).push l msg := by
  refine depot_ext (fun r => ?_) fun u => ?_
  · show (Net.hist _ r).queued = Function.update n.depot.queue l _ r
    by_cases hr : r = l
    · subst hr
      rw [Function.update_self, afterAccess_hist, queued_record_enqueue hle]
      rfl
    · rw [Function.update_of_ne hr, afterAccess_hist_ne hr]
      rfl
  · show n.hand u ∪ (Net.owned _ u).toFinset = Function.update n.depot.holds t _ u
    by_cases hu : u = t
    · subst hu
      have haside := hi.aside u msg howned
      rw [Function.update_self, owned_of_call afterAccess_call, hpc', hkeeps]
      simp [Net.depot, howned, haside]
    · rw [Function.update_of_ne hu, hi.afterAccess_other hu]
      rfl

/-- A dequeue that acquires receives the first message. -/
theorem NetInv.depot_received (hi : NetInv n) {m : Fin rpcmsgBufferSize}
    (howned : n.owned t = none) (hpc' : pc'.pastOp = some .rpcDequeue)
    (hm : (n.hist l).passed ((n.hist l).acquired .cons) = some m)
    (hlt : (n.hist l).acquired .cons < (n.hist l).acquired .prod) :
    (n.afterAccess l t q buf pc' (.acquired .rpcDequeue)).depot = (n.depot.pop l).give t m := by
  refine depot_ext (fun r => ?_) fun u => ?_
  · show (Net.hist _ r).queued = Function.update n.depot.queue l _ r
    by_cases hr : r = l
    · subst hr
      rw [Function.update_self, afterAccess_hist]
      show _ = (n.hist r).queued.tail
      rw [queued_record_dequeue (t := t) hlt hm, List.tail_cons]
    · rw [Function.update_of_ne hr, afterAccess_hist_ne hr]
      rfl
  · show n.hand u ∪ (Net.owned _ u).toFinset = Function.update n.depot.holds t _ u
    by_cases hu : u = t
    · subst hu
      rw [Function.update_self, afterAccess_dequeue hpc' hm]
      simp [Net.depot, Depot.pop, howned, Finset.union_comm]
    · rw [Function.update_of_ne hu, hi.afterAccess_other hu]
      rfl

/-- The entry that a dequeue acquired was there: a producer had published it. -/
theorem NetInv.passed_of_acquired (hi : NetInv n)
    (hafter : Inv ((n.afterAccess l t q buf pc' (.acquired .rpcDequeue)).world l)) :
    (n.hist l).acquired .cons < (n.hist l).acquired .prod ∧
      ∃ m, (n.hist l).passed ((n.hist l).acquired .cons) = some m := by
  obtain ⟨hinv, hptr⟩ := hi.queues l
  have hlt : (n.hist l).acquired .cons < (n.hist l).acquired .prod := by
    have hroom := hafter.cons_le_prod
    have hgrown : ((n.hist l).record t (.acquired .rpcDequeue)).acquired .cons
        = (n.hist l).acquired .cons + 1 := record_acquired_same _
    have hpub := le_trans (hinv.published_le .prod) (hinv.committed_le .prod)
    simp only [Net.world, afterAccess_hist, hgrown] at hroom
    exact lt_of_lt_of_le hroom hpub
  obtain ⟨_, m, _, hm⟩ := hptr.passed_of_lt hlt
  exact ⟨hlt, m, hm⟩

/-- **An access makes its transfer.** -/
theorem NetInv.access (hi : NetInv n) (hcall : n.call t = some (l, pc))
    (hmove : Moves (variant t) (n.queue l) n.buffer pc (.step none) q buf pc' e)
    (hafter : Inv ((n.afterAccess l t q buf pc' e).world l)) (hab : pc' ≠ .aborted) :
    Refines n (.access t) (n.afterAccess l t q buf pc' e) := by
  obtain ⟨hinv, hptr⟩ := hi.queues l
  have hpc : (n.world l).sys.pc t = pc := Net.pc_of_call hcall
  rcases access_kinds hmove hab with ⟨op, ot, rfl, htail, rfl, rfl⟩ | ⟨hnot, hpast, hkeeps, he⟩
  · right
    have hptrt := hptr.pointer t
    simp only [PointerHolds, hpc] at hptrt
    obtain ⟨_, h2, h3, _⟩ := hinv.positions
    have htransfer : n.transfer (.access t) = acquisition t l (n.hist l) op := by
      simp only [Net.transfer, hcall, htail, if_true]
    have howned : n.owned t = op.message := by
      rw [owned_of_call hcall]
      rfl
    rw [htransfer]
    cases op with
    | rpcEnqueue msg =>
        have howned' : n.owned t = some msg := howned
        refine ⟨.send t l msg, rfl, ?_⟩
        rw [hi.depot_sent howned' rfl rfl (le_trans h2 h3)]
        exact .send (by simp [Net.depot, howned'])
    | rpcDequeue =>
        obtain ⟨hlt, m, hm'⟩ := hi.passed_of_acquired hafter
        refine ⟨.receive t l m, by simp [acquisition, hm'], ?_⟩
        rw [hi.depot_received howned rfl hm' hlt]
        refine .receive ?_
        show (n.hist l).queued.head? = some m
        rw [queued_record_dequeue (t := t) hlt hm']
        rfl
    | _ => exact hptrt.elim
  · refine Or.inl ⟨?_, depot_ext (afterAccess_queued he) fun u => ?_⟩
    · simp only [Net.transfer, hcall]
      split
      · rename_i op ot hcas
        cases hcas
        rw [if_neg (hnot op ot rfl)]
      · rfl
    · show n.hand u ∪ (Net.owned _ u).toFinset = n.hand u ∪ (n.owned u).toFinset
      by_cases hu : u = t
      · subst hu
        rw [hi.afterAccess_self hcall hpast hkeeps he]
      · rw [hi.afterAccess_other hu]

end Access

/-! ### Every step -/

/-- A message of a call is in no hand after an access either. -/
theorem NetInv.aside_of_refines (hi : NetInv n) {act : NetAct κ τ} (hr : Refines n act n')
    (hhand : n'.hand = n.hand) (hother : ∀ u, u ≠ t → n'.owned u = n.owned u)
    (hself : n'.owned t = n.owned t ∨ n'.owned t = none ∨
      ∃ l m, n.transfer act = some (.receive t l m) ∧ n'.owned t = some m)
    (u : τ) (id : Fin rpcmsgBufferSize) (hu : n'.owned u = some id) : id ∉ n'.hand u := by
  rw [hhand]
  by_cases hut : u = t
  · subst hut
    rcases hself with hsame | hnone | ⟨l, m, htr, hm⟩
    · exact hi.aside u id (hsame ▸ hu)
    · rw [hnone] at hu
      cases hu
    · rw [hm] at hu
      cases hu
      rcases hr with ⟨hnone, _⟩ | ⟨x, hx, hstep⟩
      · rw [htr] at hnone
        cases hnone
      · rw [htr] at hx
        cases hx
        generalize n'.depot = d' at hstep
        cases hstep with
        | receive hhead =>
            intro hmem
            have hlink : n.depot.Has (.link l) id := List.mem_of_mem_head? (by simp [hhead])
            have hold : n.depot.Has (.holder u) id := Finset.mem_union_left _ hmem
            cases hi.exclusive.owner _ _ id hlink hold
  · exact hi.aside u id (hother u hut ▸ hu)

/-- Operations on pointers leave the words of the messages alone. -/
theorem NetInv.buffer_access (hi : NetInv n) {q : Queue} {buf : RpcMsgBuffer} {pc pc' : Pc}
    {e : Event} (hcall : n.call t = some (l, pc))
    (hmove : Moves (variant t) (n.queue l) n.buffer pc (.step none) q buf pc' e) :
    buf = n.buffer := by
  obtain ⟨hinv, hptr⟩ := hi.queues l
  have hpc : (n.world l).sys.pc t = pc := Net.pc_of_call hcall
  cases hmove with
  | body op entry b word hbody => exact (pointerHolds_body hptr hinv hpc hbody rfl).2.2
  | _ => rfl

theorem NetInv.queues_step (hi : NetInv n) {act : NetAct κ τ}
    (h : (netLts variant).step n act n') (r : κ) :
    Inv (n'.world r) ∧ PointerInv (n'.world r) := by
  obtain ⟨hinv, hptr⟩ := hi.queues r
  rcases queueMoves_step h r with hagree | ⟨u, a, w, hstep, hagree⟩
  · exact ⟨hagree.inv hinv, hagree.pointerInv hptr⟩
  · exact ⟨hagree.inv (hinv.step hstep.2), hagree.pointerInv (hptr.step hinv hstep)⟩

/-- What an access of `t` does, as a move of its queue. -/
theorem NetInv.access_cases (hi : NetInv n)
    (h : (netLts variant).step n (.access t) n') :
    ∃ l pc q pc' e, n.call t = some (l, pc) ∧ n' = n.afterAccess l t q n.buffer pc' e ∧
      Moves (variant t) (n.queue l) n.buffer pc (.step none) q n.buffer pc' e ∧
      pc' ≠ .aborted := by
  have hafter := hi.queues_step h
  have hmoves : NetMoves variant n (.access t) n' := netStep_moves h.2
  cases hmoves with
  | @access _ l pc pc' q buf e hcall hthread =>
      have hmove := threadStep_moves hthread
      obtain rfl := hi.buffer_access hcall hmove
      refine ⟨l, pc, q, pc', e, hcall, rfl, hmove, ?_⟩
      rintro rfl
      have hown := (hafter l).2.pointer t
      have hpc : (Net.world (n.afterAccess l t q n.buffer .aborted e) l).sys.pc t = .aborted :=
        Net.pc_of_call afterAccess_call
      simp only [PointerHolds, hpc] at hown

/-- **Every step makes its transfer.** -/
theorem NetInv.refines (hi : NetInv n) {act : NetAct κ τ}
    (h : (netLts variant).step n act n') : Refines n act n' := by
  have hmoves : NetMoves variant n act n' := netStep_moves h.2
  cases hmoves with
  | noneFree hfree hscan => exact Or.inl ⟨rfl, rfl⟩
  | found hfree hscan => exact Or.inl ⟨rfl, rfl⟩
  | @mark t id hlending =>
      refine Or.inr ⟨.issue t id, by simp [Net.transfer, hlending], ?_⟩
      rw [depot_mark]
      exact .issue fun P hP => h.1.2 id hlending ((hi.lent id).mpr ⟨P, hP⟩)
  | @reclaim t msg hfree hmem =>
      refine Or.inr ⟨.retire t msg, rfl, ?_⟩
      rw [depot_reclaim hfree.1]
      exact .retire (Finset.mem_union_left _ hmem)
  | write hfree hmem => exact Or.inl ⟨rfl, rfl⟩
  | @enqueue t l msg hfree hmem =>
      refine Or.inl ⟨rfl, depot_handed (t := t) (fun u hu => ?_) rfl ?_⟩
      · exact ⟨Function.update_of_ne hu _ _, Function.update_of_ne hu _ _⟩
      · rw [owned_of_idle hfree.1]
        simp only [Net.owned, Function.update_self, Option.bind_some]
        have hback := Finset.insert_erase hmem
        simpa [Pc.pastOp, Pc.keeps, Op.message, Finset.union_comm] using hback
  | @dequeue t l hfree =>
      refine Or.inl ⟨rfl, depot_handed (t := t) (fun u hu => ?_) rfl ?_⟩
      · exact ⟨Function.update_of_ne hu _ _, rfl⟩
      · rw [owned_of_idle hfree.1]
        simp only [Net.owned, Function.update_self, Option.bind_some]
        rfl
  | @access t l pc pc' q buf e hcall hthread =>
      obtain ⟨l', pc₀, q', pc₁, e', hcall', hafter, hmove, hab⟩ := hi.access_cases h
      rw [hafter]
      exact hi.access hcall' hmove (hafter ▸ (hi.queues_step h l').1) hab
  | @leave t l op ret out hcall =>
      refine Or.inl ⟨rfl, depot_handed (t := t) (fun u hu => ?_) rfl ?_⟩
      · exact ⟨Function.update_of_ne hu _ _, Function.update_of_ne hu _ _⟩
      · rw [← hi.handed_eq hcall]
        simp [Net.owned]

/-- What the steps that lend and reclaim nothing keep. -/
theorem NetInv.lent_of_refines (hi : NetInv n) {act : NetAct κ τ} (hr : Refines n act n')
    (hact : ∀ t a, n.transfer act ≠ some (.issue t a) ∧ n.transfer act ≠ some (.retire t a))
    (hstate : n'.state = n.state) (id : Fin rpcmsgBufferSize) :
    Lent n'.state id ↔ ∃ P, n'.depot.Has P id := by
  rw [hstate, hi.lent]
  rcases hr with ⟨_, hdepot⟩ | ⟨x, hx, hstep⟩
  · rw [hdepot]
  · refine (hstep.exists_has hi.exclusive fun t a => ⟨?_, ?_⟩).symm
    · rintro rfl
      exact (hact t a).1 hx
    · rintro rfl
      exact (hact t a).2 hx

theorem NetInv.exclusive_step (hi : NetInv n) {act : NetAct κ τ} (hr : Refines n act n') :
    Exclusive n'.depot := by
  rcases hr with ⟨_, hdepot⟩ | ⟨x, _, hstep⟩
  · rw [hdepot]
    exact hi.exclusive
  · exact hi.exclusive.step hstep

theorem mem_handed {hand : Finset (Fin rpcmsgBufferSize)} {op : Op} {ret : ℤ} {out : Out}
    {id : Fin rpcmsgBufferSize} (h : id ∈ hand) : id ∈ handed hand op ret out := by
  unfold handed
  split <;> first | exact h | (split <;> first | exact h | exact Finset.mem_insert_of_mem h)

/-- An access keeps the invariant. -/
theorem NetInv.step_access (hi : NetInv n) {q : Queue} {pc pc' : Pc} {e : Event}
    (hcall : n.call t = some (l, pc))
    (hmove : Moves (variant t) (n.queue l) n.buffer pc (.step none) q n.buffer pc' e)
    (hab : pc' ≠ .aborted) (hr : Refines n (.access t) (n.afterAccess l t q n.buffer pc' e))
    (hqueues : ∀ r, Inv ((n.afterAccess l t q n.buffer pc' e).world r) ∧
      PointerInv ((n.afterAccess l t q n.buffer pc' e).world r))
    (hexcl : Exclusive (n.afterAccess l t q n.buffer pc' e).depot) :
    NetInv (n.afterAccess l t q n.buffer pc' e) := by
  have hself : (n.afterAccess l t q n.buffer pc' e).owned t = n.owned t ∨
      (n.afterAccess l t q n.buffer pc' e).owned t = none ∨
      ∃ l' m, n.transfer (.access t) = some (.receive t l' m) ∧
        (n.afterAccess l t q n.buffer pc' e).owned t = some m := by
    rcases access_kinds hmove hab with ⟨op, ot, rfl, htail, rfl, rfl⟩ | ⟨_, hpast, hkeeps, he⟩
    · by_cases hop : op = .rpcDequeue
      · subst hop
        obtain ⟨_, m, hm⟩ := hi.passed_of_acquired (hqueues l).1
        refine Or.inr (Or.inr ⟨l, m, ?_, afterAccess_dequeue rfl hm⟩)
        simp only [Net.transfer, hcall, htail, if_true, acquisition, hm, Option.map_some]
      · right
        left
        rw [owned_of_call afterAccess_call, if_neg (by simpa [Pc.pastOp] using hop)]
        rfl
    · exact Or.inl (hi.afterAccess_self hcall hpast hkeeps he)
  exact ⟨hqueues, hi.covers, hexcl, hi.lent_of_refines hr (fun u a => transfer_access u a) rfl,
    hi.aside_of_refines hr rfl (fun u hu => hi.afterAccess_other hu) hself, hi.intact⟩

/-- The `set_bit` of a lend keeps the invariant, if its bit was clear. -/
theorem NetInv.step_mark (hi : NetInv n) {msg : Fin rpcmsgBufferSize}
    (hclear : ¬ Lent n.state msg)
    (hn : n' = { n with
      state := setBit msg n.state
      lending := Function.update n.lending t .idle
      hand := Function.update n.hand t (insert msg (n.hand t)) })
    (hqueues : ∀ r, Inv (n'.world r) ∧ PointerInv (n'.world r)) (hexcl : Exclusive n'.depot) :
    NetInv n' := by
  subst hn
  refine ⟨hqueues, hi.covers.setBit msg, hexcl, fun id => ?_, fun u id hu => ?_,
    fun id hlent hno => ?_⟩
  · rw [depot_mark, Exchange.exists_has_give, lent_setBit hi.covers, hi.lent]
  · have hu' : n.owned u = some id := hu
    have hlent : Lent n.state id :=
      (hi.lent id).mpr ⟨.holder u, Finset.mem_union_right _ (by simp [hu'])⟩
    have hne : id ≠ msg := by
      rintro rfl
      exact hclear hlent
    by_cases hut : u = t
    · subst hut
      simp [hne, hi.aside u id hu']
    · simpa only [Function.update_of_ne hut] using hi.aside u id hu'
  · have hne : id ≠ msg := by
      rintro rfl
      exact hno t (by simp)
    refine hi.intact id (((lent_setBit hi.covers).mp hlent).resolve_left hne) fun u hu => ?_
    refine hno u ?_
    by_cases hut : u = t
    · subst hut
      simp [hu]
    · simpa only [Function.update_of_ne hut] using hu

/-- So does a reclaim. -/
theorem NetInv.step_reclaim (hi : NetInv n) {msg : Fin rpcmsgBufferSize} (hfree : n.Free t)
    (hmem : msg ∈ n.hand t)
    (hn : n' = { n with
      state := rpcmsgReclaimBuffer n.state msg
      hand := Function.update n.hand t ((n.hand t).erase msg) })
    (hqueues : ∀ r, Inv (n'.world r) ∧ PointerInv (n'.world r)) (hexcl : Exclusive n'.depot) :
    NetInv n' := by
  subst hn
  have hold : msg ∈ n.depot.holds t := Finset.mem_union_left _ hmem
  refine ⟨hqueues, hi.covers.reclaim msg, hexcl, fun id => ?_, fun u id hu => ?_,
    fun id hlent hno => ?_⟩
  · rw [depot_reclaim hfree.1, hi.exclusive.exists_has_strip hold, lent_reclaim hi.covers, hi.lent]
  · have hout := hi.aside u id hu
    by_cases hut : u = t
    · subst hut
      simp [hout]
    · simpa only [Function.update_of_ne hut] using hout
  · obtain ⟨hlent', hne⟩ := (lent_reclaim hi.covers).mp hlent
    refine hi.intact id hlent' fun u hu => hno u ?_
    by_cases hut : u = t
    · subst hut
      simp [hu, hne]
    · simpa only [Function.update_of_ne hut] using hu

/-- So does the call of an enqueue, which leaves the words as they are. -/
theorem NetInv.step_enqueue (hi : NetInv n) {msg : Fin rpcmsgBufferSize}
    (hr : Refines n (.enqueue t l msg) n')
    (hn : n' = { n with
      call := Function.update n.call t (some (l, .acquiring (.rpcEnqueue msg) .load))
      hand := Function.update n.hand t ((n.hand t).erase msg)
      left := Function.update n.left msg (n.buffer msg) })
    (hqueues : ∀ r, Inv (n'.world r) ∧ PointerInv (n'.world r)) (hexcl : Exclusive n'.depot) :
    NetInv n' := by
  subst hn
  refine ⟨hqueues, hi.covers, hexcl,
    hi.lent_of_refines hr (fun _ _ => by simp [Net.transfer]) rfl, fun u id hu => ?_,
    fun id hlent hno => ?_⟩
  · by_cases hut : u = t
    · subst hut
      have hid : msg = id := by
        simpa [Net.owned, Pc.pastOp, Pc.keeps, Op.message] using hu
      simp [hid]
    · have hu' : n.owned u = some id := (owned_update_ne hut).symm.trans hu
      simpa only [Function.update_of_ne hut] using hi.aside u id hu'
  · by_cases hid : id = msg
    · subst hid
      simp
    · simp only [Function.update_of_ne hid]
      refine hi.intact id hlent fun u hu => hno u ?_
      by_cases hut : u = t
      · subst hut
        simp [hu, hid]
      · simpa only [Function.update_of_ne hut] using hu

/-- **The step lemma.** -/
theorem NetInv.step (hi : NetInv n) {act : NetAct κ τ} (h : (netLts variant).step n act n') :
    NetInv n' := by
  have hr := hi.refines h
  have hqueues := hi.queues_step h
  have hexcl := hi.exclusive_step hr
  have hmoves : NetMoves variant n act n' := netStep_moves h.2
  cases hmoves with
  | noneFree hfree hscan => exact hi
  | found hfree hscan => exact { hi with queues := hqueues, exclusive := hexcl }
  | @mark t msg hlending => exact hi.step_mark (h.1.2 msg hlending) rfl hqueues hexcl
  | reclaim hfree hmem => exact hi.step_reclaim hfree hmem rfl hqueues hexcl
  | @write t msg i word hfree hmem =>
      refine ⟨hqueues, hi.covers, hexcl, hi.lent, hi.aside, fun id hlent hno => ?_⟩
      have hne : id ≠ msg := by
        rintro rfl
        exact hno t hmem
      simp only [Function.update_of_ne hne]
      exact hi.intact id hlent hno
  | enqueue hfree hmem => exact hi.step_enqueue hr rfl hqueues hexcl
  | @dequeue t l hfree =>
      refine ⟨hqueues, hi.covers, hexcl,
        hi.lent_of_refines hr (fun _ _ => by simp [Net.transfer]) rfl, fun u id hu => ?_,
        hi.intact⟩
      by_cases hut : u = t
      · subst hut
        simp [Net.owned, Pc.pastOp, Pc.keeps, Op.message] at hu
      · exact hi.aside u id ((owned_update_ne hut).symm.trans hu)
  | @access t l pc pc' q buf e hcall hthread =>
      obtain ⟨l', pc₀, q', pc₁, e', hcall', hafter, hmove, hab⟩ := hi.access_cases h
      rw [hafter] at hr hqueues hexcl ⊢
      exact hi.step_access hcall' hmove hab hr hqueues hexcl
  | @leave t l op ret out hcall =>
      refine ⟨hqueues, hi.covers, hexcl,
        hi.lent_of_refines hr (fun _ _ => by simp [Net.transfer]) rfl, fun u id hu => ?_,
        fun id hlent hno => hi.intact id hlent fun u hu => hno u ?_⟩
      · by_cases hut : u = t
        · subst hut
          simp [Net.owned] at hu
        · have hu' : n.owned u = some id := (owned_update_ne hut).symm.trans hu
          simpa only [Function.update_of_ne hut] using hi.aside u id hu'
      · by_cases hut : u = t
        · subst hut
          simpa only [Function.update_self] using mem_handed hu
        · simpa only [Function.update_of_ne hut] using hu

end Refines

end TiiSel4Vm.RpcQueue
