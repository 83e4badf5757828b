import TiiSel4Vm.Rpc.NetworkOwners

/-!
# Every run of the network

* `net_refines` — a run of the network is the run of the exchange made of its transfers, so every
  queue is first in, first out;
* `net_ownership` — a lent message is in one place; whoever has it is alone with it and finds the
  words it was enqueued with;
* `enqueue_succeeds` — where every queue has one consumer, no message is ever refused.

Each of them is about the runs in which a thread uses its copies of the markers while they are fresh
and every `set_bit` of a lend finds its bit clear, as it does wherever one thread lends.
-/

namespace TiiSel4Vm.RpcQueue

open TiiSel4Vm.Transition TiiSel4Vm.WrapCounter
open TiiSel4Vm.Exchange (Depot Transfer exchangeLts Exclusive)

variable {κ τ : Type} [DecidableEq κ] [DecidableEq τ]

/-! ### The transfers of a run -/

/-- The transfers of the steps, in order. -/
def transfers (variant : τ → CasVariant) :
    Net κ τ → List (NetAct κ τ) → List (Transfer κ τ (Fin rpcmsgBufferSize)) :=
  outputs (netStep variant) Net.transfer

section Runs

variable {variant : τ → CasVariant} {n n' : Net κ τ} {acts : List (NetAct κ τ)}

theorem transfers_snoc {act : NetAct κ τ} (h : (netLts variant).Run Net.initial acts n)
    (hs : (netLts variant).step n act n') :
    transfers variant .initial (acts ++ [act])
      = transfers variant .initial acts ++ (n.transfer act).toList :=
  outputs_snoc (fun _ _ _ (hstep : (netLts variant).step _ _ _) => hstep.2) Net.transfer h hs

variable [Fintype τ]

omit [DecidableEq τ] in
theorem netInv_initial : NetInv (Net.initial : Net κ τ) where
  queues _ := ⟨inv_initial, pointerInv_initial⟩
  covers := coversBuffers_init
  exclusive := Exchange.exclusive_empty
  lent id := by
    constructor
    · intro h
      exact absurd h (not_lent_init id)
    · rintro ⟨P, hP⟩
      cases P with
      | link l => exact absurd hP List.not_mem_nil
      | holder t => exact absurd hP (Finset.notMem_empty id)
  aside _ _ h := by cases h
  intact _ _ _ := rfl

theorem netInv_of_reachable (h : (netLts variant).Reachable n) : NetInv n := by
  refine h.invariant (I := NetInv) (fun n hn => ?_) fun n act n' _ hi hs => hi.step hs
  cases hn
  exact netInv_initial

/-- The transfers of a run are a run of the exchange. -/
theorem exchange_run (h : (netLts variant).Run Net.initial acts n) :
    (exchangeLts (κ := κ)).Run Depot.empty (transfers variant .initial acts) n.depot := by
  induction h with
  | nil => exact .nil _
  | @snoc m m' acts act hrun hs ih =>
      have hi : NetInv m := netInv_of_reachable (Lts.Reachable.run (.init rfl) hrun)
      rw [transfers_snoc hrun hs]
      rcases hi.refines hs with ⟨hnone, hdepot⟩ | ⟨x, hx, hmove⟩
      · rw [hnone, hdepot, Option.toList_none, List.append_nil]
        exact ih
      · rw [hx, Option.toList_some]
        exact ih.snoc hmove

/-- **The network is an exchange.**  Whatever the number of queues and threads, the build of each
and the order of their accesses and lends, a run of the network is a run of the exchange: its
transfers, in the order of the `set_bit`s and of the compare-and-swaps that acquire, lead to what
the network stands for.  Along every queue the messages received are the first ones sent, in order,
and the others are still queued. -/
theorem net_refines (h : (netLts variant).Run Net.initial acts n) :
    (exchangeLts (κ := κ)).Run Depot.empty (transfers variant .initial acts) n.depot ∧
      ∀ l, (transfers variant .initial acts).filterMap (Transfer.sends l)
        = (transfers variant .initial acts).filterMap (Transfer.receives l)
          ++ (n.hist l).queued :=
  ⟨exchange_run h, fun l => Exchange.sent_eq (exchange_run h) l⟩

/-! ### Who has a message -/

/-- What the network promises in a state with its record. -/
structure NetOwnership (n : Net κ τ) : Prop where
  /-- a message is lent when it is somewhere, and then in one place -/
  lent : ∀ id, Lent n.state id ↔ ∃ P, n.depot.Has P id
  owner : ∀ P Q id, n.depot.Has P id → n.depot.Has Q id → P = Q
  nodup : ∀ l, (n.hist l).queued.Nodup
  /-- no two threads have the same message for themselves -/
  hands : ∀ t u id, id ∈ n.hand t → id ∈ n.hand u → t = u
  /-- a queued message is in no hand and has the words it was enqueued with -/
  queued : ∀ l, ∀ id ∈ (n.hist l).queued, (∀ u, id ∉ n.hand u) ∧ n.buffer id = n.left id
  /-- so is the message that a dequeue returns, which is in no queue any more -/
  received : ∀ t l out, n.call t = some (l, .returned .rpcDequeue 0 out) →
    ∃ id, out = .pointer id ∧ Lent n.state id ∧ (∀ r, id ∉ (n.hist r).queued) ∧
      (∀ u, id ∉ n.hand u) ∧ n.buffer id = n.left id
  /-- a message that could not be enqueued is in no queue and in no other hand -/
  refused : ∀ t l id ret out, n.call t = some (l, .returned (.rpcEnqueue id) ret out) → ret ≠ 0 →
    (∀ r, id ∉ (n.hist r).queued) ∧ (∀ u, id ∉ n.hand u) ∧ n.buffer id = n.left id
  /-- no assertion on a message id fails -/
  noAbort : ∀ t l, n.call t ≠ some (l, .aborted)

omit [DecidableEq τ] in
/-- A message of a call is nowhere else, with its words. -/
theorem NetInv.of_owned (hi : NetInv n) {t : τ} {id : Fin rpcmsgBufferSize}
    (h : n.owned t = some id) :
    (∀ r, id ∉ (n.hist r).queued) ∧ (∀ u, id ∉ n.hand u) ∧ n.buffer id = n.left id := by
  have hold : n.depot.Has (.holder t) id := Finset.mem_union_right _ (by simp [h])
  have hhands : ∀ u, id ∉ n.hand u := by
    intro u hu
    cases hi.exclusive.owner (.holder t) (.holder u) id hold (Finset.mem_union_left _ hu)
    exact hi.aside t id h hu
  refine ⟨fun r hr => ?_, hhands, hi.intact id ((hi.lent id).mpr ⟨_, hold⟩) hhands⟩
  cases hi.exclusive.owner (.holder t) (.link r) id hold hr

/-- **Whoever has a message is alone with it.**  In every reachable state of the network a lent
message is in exactly one queue or with one thread; what a dequeue returns is in no other hand and
no queue, and its words are those that its sender left; a message that was refused is still its
sender's. -/
theorem net_ownership (h : (netLts variant).Reachable n) : NetOwnership n := by
  have hi := netInv_of_reachable h
  refine
    { lent := hi.lent, owner := hi.exclusive.owner, nodup := hi.exclusive.nodup,
      hands := fun t u id ht hu => ?_, queued := fun l id hid => ?_,
      received := fun t l out hcall => ?_, refused := fun t l id ret out hcall hret => ?_,
      noAbort := fun t l hcall => ?_ }
  · cases hi.exclusive.owner (.holder t) (.holder u) id (Finset.mem_union_left _ ht)
      (Finset.mem_union_left _ hu)
    rfl
  · have hlink : n.depot.Has (.link l) id := hid
    have hhands : ∀ u, id ∉ n.hand u := by
      intro u hu
      cases hi.exclusive.owner _ (.holder u) id hlink (Finset.mem_union_left _ hu)
    exact ⟨hhands, hi.intact id ((hi.lent id).mpr ⟨_, hlink⟩) hhands⟩
  · have hpc : (n.world l).sys.pc t = .returned .rpcDequeue 0 out := Net.pc_of_call hcall
    have hptr := (hi.queues l).2.pointer t
    simp only [PointerHolds, hpc] at hptr
    obtain ⟨id, rfl, hm⟩ := hptr.2 trivial trivial
    have hown : n.owned t = some id := by
      have hm' : (n.hist l).passed ((n.hist l).place t) = some id := hm
      simp [owned_of_call hcall, Pc.pastOp, hm']
    obtain ⟨hq, hh, hb⟩ := hi.of_owned hown
    have hold : n.depot.Has (.holder t) id := Finset.mem_union_right _ (by simp [hown])
    exact ⟨id, rfl, (hi.lent id).mpr ⟨_, hold⟩, hq, hh, hb⟩
  · refine hi.of_owned (t := t) ?_
    rw [owned_of_call hcall]
    simp [Pc.pastOp, Pc.keeps, hret, Op.message]
  · have hpc : (n.world l).sys.pc t = .aborted := Net.pc_of_call hcall
    have hptr := (hi.queues l).2.pointer t
    simp only [PointerHolds, hpc] at hptr

end Runs

/-! ### One consumer for each queue -/

/-- The operation of a call. -/
def Pc.op : Pc → Option Op
  | .acquiring op _ => some op
  | .body op _ _ => some op
  | .committing op _ _ => some op
  | .returned op _ _ => some op
  | _ => none

/-- Steps inside an operation stay inside it. -/
theorem Moves.op_eq {v : CasVariant} {q q' : Queue} {buf buf' : RpcMsgBuffer} {pc pc' : Pc}
    {e : Event} (h : Moves v q buf pc (.step none) q' buf' pc' e) (hab : pc' ≠ .aborted) :
    pc'.op = pc.op := by
  cases h with
  | @body op entry b word _ _ r hbody =>
      cases r with
      | more b' => rfl
      | finished out => rfl
      | abort => exact absurd rfl hab
  | _ => rfl

/-- If the act starts a dequeue, the consumer of the queue does. -/
def NetAct.ByConsumer (consumer : κ → τ) : NetAct κ τ → Prop
  | .dequeue t l => t = consumer l
  | _ => True

instance (consumer : κ → τ) : DecidablePred (NetAct.ByConsumer consumer)
  | .dequeue t l => inferInstanceAs (Decidable (t = consumer l))
  | .scan _ => .isTrue trivial
  | .mark _ => .isTrue trivial
  | .reclaim _ _ => .isTrue trivial
  | .write _ _ _ _ => .isTrue trivial
  | .enqueue _ _ _ => .isTrue trivial
  | .access _ => .isTrue trivial
  | .leave _ => .isTrue trivial

/-- The network when thread `consumer l` alone dequeues from queue `l`. -/
def singleLts (variant : τ → CasVariant) (consumer : κ → τ) : Lts (Net κ τ) (NetAct κ τ) :=
  (netLts variant).restrict fun _ act => act.ByConsumer consumer

/-- A side used by one thread is published as soon as it is committed. -/
theorem published_eq_committed [Fintype τ] {variant : τ → CasVariant} {w w' : World τ} {t : τ}
    {act : Act} {s : Side} (hi : Inv w) (h : (worldLts variant).step w (t, act) w')
    (halone : ∀ u v, (w.sys.pc u).InFlight s → (w.sys.pc v).InFlight s → u = v)
    (hs : w.hist.published s = w.hist.committed s) :
    w'.hist.published s = w'.hist.committed s := by
  rcases step_kinds hi h with ⟨pc', hq⟩ | ⟨op, ot, _, rfl⟩ |
    ⟨op, out, oh, tl, hpc, hfresh, hhead, rfl⟩
  · rw [hq.quiet.published, hq.quiet.committed]
    exact hs
  · exact hs
  · by_cases hside : s = op.side
    · subst hside
      have hown := hi.copies t
      simp only [CopiesHold, hpc] at hown
      obtain ⟨hcopy, hsample⟩ := hown
      have hcur := stamp_eq_committed hi hcopy hfresh hhead
      have hfly : (w.sys.pc t).InFlight op.side := by simp [hpc, Pc.InFlight]
      -- `t` is the only one in flight, so it samples its own acquisition as the last
      have hcount : countThreads (Pc.InFlight op.side) w.sys.pc ≤ 1 :=
        Finset.card_le_one.mpr fun u hu v hv =>
          halone u v (Finset.mem_filter.mp hu).2 (Finset.mem_filter.mp hv).2
      have hflight := hi.inFlight op.side
      have hlast : LastCommitter oh tl := by
        obtain ⟨_, hlt, hle, _⟩ := id hsample
        exact (lastCommitter_iff hi hcopy hsample hcur).mpr (by omega)
      show (w.hist.record t (.committed op (decide (LastCommitter oh tl)) out)).published op.side
        = (w.hist.record t (.committed op (decide (LastCommitter oh tl)) out)).committed op.side
      rw [record_published_same, record_committed_same, decide_eq_true hlast, if_pos rfl]
    · show (w.hist.record t (.committed op (decide (LastCommitter oh tl)) out)).published s
        = (w.hist.record t (.committed op (decide (LastCommitter oh tl)) out)).committed s
      rw [record_published_ne _ _ hside, record_committed_ne _ _ hside]
      exact hs

/-- What a network with one consumer for each queue keeps. -/
structure SingleInv [Fintype τ] (consumer : κ → τ) (n : Net κ τ) : Prop where
  net : NetInv n
  dequeuer : ∀ t l pc, n.call t = some (l, pc) → pc.op = some .rpcDequeue → t = consumer l
  published : ∀ l, (n.hist l).published .cons = (n.hist l).committed .cons
  accepted : ∀ t l id ret out, n.call t = some (l, .returned (.rpcEnqueue id) ret out) → ret = 0

section Single

variable [Fintype τ] {variant : τ → CasVariant} {consumer : κ → τ} {n n' : Net κ τ} {t u : τ}
  {l : κ}

omit [DecidableEq τ] in
theorem singleInv_initial : SingleInv consumer (Net.initial : Net κ τ) where
  net := netInv_initial
  dequeuer _ _ _ h := by cases h
  published _ := rfl
  accepted _ _ _ _ _ h := by cases h

omit [DecidableEq τ] in
/-- Only the consumer is in flight on the consumers' side. -/
theorem SingleInv.eq_consumer (h : SingleInv consumer n)
    (hfly : ((n.world l).sys.pc u).InFlight .cons) :
    u = consumer l ∧ ∃ pc, n.call u = some (l, pc) ∧ pc.pastOp = some .rpcDequeue := by
  have hfly' : (n.pc l u).InFlight .cons := hfly
  cases hcall : n.call u with
  | none =>
      rw [Net.pc_of_idle hcall] at hfly'
      exact hfly'.elim
  | some c =>
      obtain ⟨r, pc⟩ := c
      by_cases hr : r = l
      · subst hr
        rw [Net.pc_of_call hcall] at hfly'
        obtain ⟨op, hpast, hside⟩ := Pc.pastOp_of_inFlight hfly'
        have hptr := (h.net.queues r).2
        have hpc : (n.world r).sys.pc u = pc := Net.pc_of_call hcall
        have hacq := hptr.places.acquirer u op (by rw [hpc]; exact hpast)
        have hpointer := hptr.pointers op.side _ (List.mem_of_getElem? hacq)
        have hop : op = .rpcDequeue := by
          cases op with
          | rpcDequeue => rfl
          | rpcEnqueue id => cases hside
          | _ => exact hpointer.elim
        subst hop
        have hpcop : pc.op = some .rpcDequeue := by
          cases pc with
          | body o entry b => exact hpast
          | committing o out c => exact hpast
          | _ => exact hfly'.elim
        exact ⟨h.dequeuer u r pc hcall hpcop, pc, rfl, hpast⟩
      · rw [Net.pc_idle_of_ne hcall (Ne.symm hr)] at hfly'
        exact hfly'.elim

omit [Fintype τ] [DecidableEq τ] in
/-- The number of queued messages is the number of positions between the tails. -/
theorem PointerInv.length_queued {w : World τ} (hp : PointerInv w) :
    w.hist.queued.length = w.hist.acquired .prod - w.hist.acquired .cons := by
  have hall : ∀ a ∈ (w.hist.acquirers .prod).drop (w.hist.acquired .cons),
      (fun a : τ × Op => a.2.message.isSome) a = true := by
    intro a ha
    have hmem := List.mem_of_mem_drop ha
    have hside := hp.places.side .prod a hmem
    have hpointer := hp.pointers .prod a hmem
    obtain ⟨t, op⟩ := a
    cases op with
    | rpcEnqueue id => rfl
    | rpcDequeue => cases hside
    | _ => exact hpointer.elim
  rw [Hist.queued, List.length_filterMap_eq_countP, List.countP_eq_length.mpr hall,
    List.length_drop]
  rfl

omit [DecidableEq τ] in
/-- **There is room** for a message that is with the caller of an enqueue: all the others fit. -/
theorem SingleInv.room (h : SingleInv consumer n) {id : Fin rpcmsgBufferSize} {a : Acquire}
    (hcall : n.call t = some (l, .acquiring (.rpcEnqueue id) a)) :
    (n.hist l).acquired .prod < (n.hist l).published .cons + rpcmsgBufferSize := by
  obtain ⟨hinv, hptr⟩ := h.net.queues l
  have hlen := hptr.length_queued
  have hnodup : (n.hist l).queued.Nodup := h.net.exclusive.nodup l
  have hpub := h.published l
  have hflight := hinv.inFlight .cons
  have hle := hinv.prod_le_cons
  have hown : n.owned t = some id := by
    rw [owned_of_call hcall]
    rfl
  obtain ⟨hnot, _, _⟩ := h.net.of_owned hown
  have hcard : ∀ ids : List (Fin rpcmsgBufferSize), ids.Nodup → ids.length ≤ rpcmsgBufferSize :=
    fun ids hids => by simpa using hids.length_le_card
  simp only [Net.world] at hlen hflight hle
  by_cases hidle : ∀ u, ¬ ((n.world l).sys.pc u).InFlight .cons
  · -- 32 queued messages and the caller's own would be 33
    have hzero := countThreads_eq_zero_iff.mpr hidle
    have := hcard (id :: (n.hist l).queued) (List.nodup_cons.mpr ⟨hnot l, hnodup⟩)
    simp only [Net.world] at hzero
    rw [List.length_cons] at this
    omega
  · -- 31 queued ones, the caller's and the one the consumer is about to have
    obtain ⟨u, hu⟩ := not_forall_not.mp hidle
    obtain ⟨rfl, pc, hcu, hpast⟩ := h.eq_consumer hu
    obtain ⟨m, hm⟩ := h.net.passed_of_past hcu hpast
    have hownu : n.owned (consumer l) = some m := by
      rw [owned_of_call hcu, if_pos hpast]
      exact hm
    obtain ⟨hnotm, _, _⟩ := h.net.of_owned hownu
    have hne : id ≠ m := by
      rintro rfl
      have ht : n.depot.Has (.holder t) id := Finset.mem_union_right _ (by simp [hown])
      have hu' : n.depot.Has (.holder (consumer l)) id :=
        Finset.mem_union_right _ (by simp [hownu])
      cases h.net.exclusive.owner _ _ id ht hu'
      rw [hcall] at hcu
      cases hcu
      cases hpast
    have hcount : countThreads (Pc.InFlight .cons) (n.world l).sys.pc ≤ 1 :=
      Finset.card_le_one.mpr fun v hv w hw => by
        rw [(h.eq_consumer (Finset.mem_filter.mp hv).2).1,
          (h.eq_consumer (Finset.mem_filter.mp hw).2).1]
    have := hcard (id :: m :: (n.hist l).queued) (by simp [hne, hnot l, hnotm l, hnodup])
    simp only [Net.world] at hcount
    rw [List.length_cons, List.length_cons] at this
    omega

omit [DecidableEq κ] [DecidableEq τ] in
/-- All slots are taken only when the producers are a whole ring ahead. -/
theorem not_exhausted {w : World τ} (hi : Inv w)
    (hroom : w.hist.acquired .prod < w.hist.published .cons + rpcmsgBufferSize) :
    ¬ w.sys.queue.Exhausted .prod := by
  intro hfull
  obtain ⟨h1, h2, h3, _⟩ := hi.positions
  have hle : w.hist.published .cons ≤ w.hist.acquired .prod := le_trans h1 (le_trans h2 h3)
  have hsub := congrArg BitVec.toNat hfull
  simp only [rpcmsgBufferSize] at hroom
  rw [hi.prod_tail_pos, hi.cons_head_pos, wrap_sub_toNat hle (by omega)] at hsub
  have h32 : (BitVec.ofNat 32 rpcmsgBufferSize).toNat = 32 := by decide
  omega

omit [Fintype τ] in
/-- Between its accesses a call does not change, ends, or starts. -/
theorem call_of_netStep {act : NetAct κ τ} (h : netStep variant n act = some n')
    (hact : ∀ t, act ≠ .access t) (u : τ) :
    n'.call u = n.call u ∨ n'.call u = none ∨
      ∃ l op, n'.call u = some (l, .acquiring op .load) ∧
        ((op = .rpcDequeue ∧ act = .dequeue u l) ∨
          ∃ id, op = .rpcEnqueue id ∧ act = .enqueue u l id) := by
  cases netStep_moves h with
  | @enqueue t l id hfree hmem =>
      by_cases hut : u = t
      · subst hut
        exact Or.inr (Or.inr ⟨l, _, Function.update_self .., Or.inr ⟨id, rfl, rfl⟩⟩)
      · exact Or.inl (Function.update_of_ne hut _ _)
  | @dequeue t l hfree =>
      by_cases hut : u = t
      · subst hut
        exact Or.inr (Or.inr ⟨l, _, Function.update_self .., Or.inl ⟨rfl, rfl⟩⟩)
      · exact Or.inl (Function.update_of_ne hut _ _)
  | access hcall hthread => exact absurd rfl (hact _)
  | @leave t l op ret out hcall =>
      by_cases hut : u = t
      · subst hut
        exact Or.inr (Or.inl (Function.update_self ..))
      · exact Or.inl (Function.update_of_ne hut _ _)
  | _ => exact Or.inl rfl

theorem SingleInv.access (h : SingleInv consumer n)
    (hs : (netLts variant).step n (.access t) n') {id : Fin rpcmsgBufferSize} {ret : ℤ}
    {out : Out} (hcall : n'.call t = some (l, .returned (.rpcEnqueue id) ret out)) : ret = 0 := by
  obtain ⟨r, pc, q, pc', e, hbefore, rfl, hmove, _⟩ := h.net.access_cases hs
  have hsame : (r, pc') = (l, Pc.returned (.rpcEnqueue id) ret out) :=
    Option.some.inj (afterAccess_call.symm.trans hcall)
  cases hsame
  generalize hret : Pc.returned (.rpcEnqueue id) ret out = pc' at hmove
  cases hmove with
  | commit op out' oh tl heq =>
      cases hret
      rfl
  | body op entry b word hbody =>
      rename_i r
      cases r <;> simp [BodyResult.pc] at hret
  | full op ot hzero =>
      cases hret
      exfalso
      obtain ⟨hinv, _⟩ := h.net.queues l
      have hfresh := hs.1.1
      have hpc : (n.world l).sys.pc t = .acquiring (.rpcEnqueue id) (.check ot) :=
        Net.pc_of_call hbefore
      have hcopies := hinv.copies t
      simp only [NetFresh, hbefore, Fresh, hpc] at hfresh
      simp only [CopiesHold, hpc] at hcopies
      have hfull : (n.world l).sys.queue.Exhausted (Op.rpcEnqueue id).side :=
        exhausted_of_entries hinv hcopies.1 (hfresh hzero) hzero
      exact not_exhausted hinv (h.room hbefore) hfull
  | _ => cases hret

/-- **The step lemma.** -/
theorem SingleInv.step {act : NetAct κ τ} (h : SingleInv consumer n)
    (hs : (singleLts variant consumer).step n act n') : SingleInv consumer n' := by
  obtain ⟨hguard, hnet⟩ := hs
  have hstep : netStep variant n act = some n' := hnet.2
  -- a call that an access of its thread did not change, or that just started
  have hother : (∀ t, act ≠ .access t) ∨ ∃ t, act = .access t ∧
      ∀ u, u ≠ t → n'.call u = n.call u := by
    by_cases hact : ∃ t, act = .access t
    · obtain ⟨t, rfl⟩ := hact
      obtain ⟨l, pc, q, pc', e, _, rfl, _⟩ := h.net.access_cases hnet
      exact Or.inr ⟨t, rfl, fun u hu => Function.update_of_ne hu _ _⟩
    · exact Or.inl fun t he => hact ⟨t, he⟩
  refine ⟨h.net.step hnet, fun u r pc hcu hop => ?_, fun r => ?_, fun u r id ret out hcu => ?_⟩
  · rcases hother with hact | ⟨t, rfl, hsame⟩
    · rcases call_of_netStep hstep hact u with
        hc | hc | ⟨l, op, hc, ⟨rfl, rfl⟩ | ⟨id, rfl, -⟩⟩
      · exact h.dequeuer u r pc (hc ▸ hcu) hop
      · rw [hc] at hcu
        cases hcu
      · rw [hc] at hcu
        cases hcu
        exact hguard
      · rw [hc] at hcu
        cases hcu
        cases hop
    · by_cases hut : u = t
      · subst hut
        obtain ⟨l, pc₀, q, pc', e, hbefore, rfl, hmove, hab⟩ := h.net.access_cases hnet
        have hpair : (l, pc') = (r, pc) := Option.some.inj (afterAccess_call.symm.trans hcu)
        cases hpair
        exact h.dequeuer u r pc₀ hbefore ((hmove.op_eq hab).symm.trans hop)
      · exact h.dequeuer u r pc (hsame u hut ▸ hcu) hop
  · have halone : ∀ u v, ((n.world r).sys.pc u).InFlight .cons →
        ((n.world r).sys.pc v).InFlight .cons → u = v := fun u v hu hv => by
      rw [(h.eq_consumer hu).1, (h.eq_consumer hv).1]
    rcases queueMoves_step hnet r with hagree | ⟨u, a, w, hmove, hagree⟩
    · have hhist : n'.hist r = n.hist r := hagree.hist
      rw [hhist]
      exact h.published r
    · have hhist : n'.hist r = w.hist := hagree.hist
      rw [hhist]
      exact published_eq_committed (h.net.queues r).1 hmove.2 halone (h.published r)
  · rcases hother with hact | ⟨t, rfl, hsame⟩
    · rcases call_of_netStep hstep hact u with hc | hc | ⟨l, op, hc, _⟩
      · exact h.accepted u r id ret out (hc ▸ hcu)
      · rw [hc] at hcu
        cases hcu
      · rw [hc] at hcu
        cases hcu
    · by_cases hut : u = t
      · subst hut
        exact h.access hnet hcu
      · exact h.accepted u r id ret out (hsame u hut ▸ hcu)

/-- **No message is refused.**  Where one thread alone dequeues from each queue, however many
enqueue and in whatever order all their accesses fall, every `rpcmsg_enqueue` of a message that its
caller had returns 0: the 32 slots of a ring suffice for the 32 messages of the table. -/
theorem enqueue_succeeds (h : (singleLts variant consumer).Reachable n)
    {id : Fin rpcmsgBufferSize} {ret : ℤ} {out : Out}
    (hcall : n.call t = some (l, .returned (.rpcEnqueue id) ret out)) : ret = 0 := by
  have hi : SingleInv consumer n := by
    refine h.invariant (I := SingleInv consumer) (fun n hn => ?_) fun n act n' _ hi hs => hi.step hs
    cases hn
    exact singleInv_initial
  exact hi.accepted t l id ret out hcall

end Single

/-! ### One message through a queue -/

/-- One thread (`false`) lends a message, writes a word and enqueues it. -/
def sendScript (id : Fin rpcmsgBufferSize) : List (NetAct Unit Bool) :=
  [.scan false, .mark false, .write false id mr1 5#64, .enqueue false () id] ++
    List.replicate 8 (.access false)

/-- Then the other one lends the next message and dequeues the first. -/
def messageScript (id : Fin rpcmsgBufferSize) : List (NetAct Unit Bool) :=
  sendScript id ++ [.leave false, .scan true, .mark true, .dequeue true ()] ++
    List.replicate 8 (.access true)

/-- The conditions on a step when only the other thread (`true`) dequeues. -/
abbrev Promised (n : Net Unit Bool) (act : NetAct Unit Bool) : Prop :=
  act.ByConsumer (fun _ => true) ∧ NetFresh n act ∧ NetClear n act

/-- The network after a script. -/
def afterScript (acts : List (NetAct Unit Bool)) : Option (Net Unit Bool) :=
  runAll (guarded Promised (netStep fun _ => .user)) .initial acts

theorem singleLts_of_guarded (n : Net Unit Bool) (act : NetAct Unit Bool) (n' : Net Unit Bool)
    (h : guarded Promised (netStep fun _ => .user) n act = some n') :
    (singleLts (fun _ => .user) fun _ => true).step n act n' := by
  obtain ⟨⟨hby, hfresh⟩, hstep⟩ := guarded_step h
  exact ⟨hby, hfresh, hstep⟩

theorem netLts_run_of_afterScript {acts : List (NetAct Unit Bool)} {n : Net Unit Bool}
    (h : afterScript acts = some n) : (netLts fun _ => .user).Run .initial acts n :=
  .of_runAll (fun n act n' hs => (singleLts_of_guarded n act n' hs).2) h

/-- The transfers of the script, and the message it leaves with the other thread. -/
theorem net_refines_message : ∃ n : Net Unit Bool,
    (exchangeLts (κ := Unit)).Run Depot.empty
      (transfers (fun _ => .user) .initial (messageScript 0)) n.depot ∧
    n.owned true = some 0 := by
  obtain ⟨n, hn⟩ := Option.isSome_iff_exists.mp
    (by decide +kernel : (afterScript (messageScript 0)).isSome = true)
  have hown : (afterScript (messageScript 0)).bind (fun n => n.owned true) = some 0 := by
    decide +kernel
  rw [hn, Option.bind_some] at hown
  exact ⟨n, (net_refines (netLts_run_of_afterScript hn)).1, hown⟩

/-- The message the other thread received is in no hand, with the words it was enqueued with. -/
theorem net_ownership_message : ∃ (n : Net Unit Bool) (id : Fin rpcmsgBufferSize),
    n.owned true = some id ∧ (∀ u, id ∉ n.hand u) ∧ n.buffer id = n.left id := by
  obtain ⟨n, hn⟩ := Option.isSome_iff_exists.mp
    (by decide +kernel : (afterScript (messageScript 0)).isSome = true)
  have hown : (afterScript (messageScript 0)).bind (fun n => n.owned true) = some 0 := by
    decide +kernel
  have hret : (afterScript (messageScript 0)).bind (fun n => n.call true)
      = some ((), .returned .rpcDequeue 0 (.pointer 0)) := by
    decide +kernel
  rw [hn, Option.bind_some] at hown hret
  have hreach := Lts.Reachable.run (.init rfl) (netLts_run_of_afterScript hn)
  obtain ⟨id, hid, _, _, hno, hwords⟩ := (net_ownership hreach).received true () _ hret
  cases hid
  exact ⟨n, _, hown, hno, hwords⟩

/-- The first thread's enqueue returned 0. -/
theorem enqueue_succeeds_message : ∃ (n : Net Unit Bool) (ret : ℤ),
    n.call false = some ((), .returned (.rpcEnqueue 0) ret .nothing) ∧ ret = 0 := by
  obtain ⟨n, hn⟩ := Option.isSome_iff_exists.mp
    (by decide +kernel : (afterScript (sendScript 0)).isSome = true)
  have hret : (afterScript (sendScript 0)).bind (fun n => n.call false)
      = some ((), .returned (.rpcEnqueue 0) 0 .nothing) := by
    decide +kernel
  rw [hn, Option.bind_some] at hret
  have hreach := Lts.Reachable.run (M := singleLts (fun _ => .user) fun _ => true) (.init rfl)
    (.of_runAll singleLts_of_guarded hn)
  exact ⟨n, _, hret, enqueue_succeeds hreach hret⟩

end TiiSel4Vm.RpcQueue
