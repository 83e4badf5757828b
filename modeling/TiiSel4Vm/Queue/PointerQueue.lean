import TiiSel4Vm.Queue.Places

/-!
# Rpc queues: every pointer is handed over once, in order

Threads call only `rpcmsg_enqueue` with `rpcmsg_rpc_enqueue_fn` and `rpcmsg_dequeue` with
`rpcmsg_rpc_dequeue_fn`: the ring slot of a position holds the id its producer was called with, from
the producer's commit until the consumer's.

* `PointerInv.step` — one step keeps the ring tied to the history;
* `pointer_delivery` — in every reachable state what a consumer gets at a position is the pointer of
  the producer of that position.
-/

namespace TiiSel4Vm.RpcQueue

open TiiSel4Vm.Transition TiiSel4Vm.WrapCounter

variable {τ : Type}

/-- `rpcmsg_enqueue` and `rpcmsg_dequeue` of pointers. -/
def Op.IsPointer : Op → Prop
  | .rpcEnqueue _ => True
  | .rpcDequeue => True
  | _ => False

/-- If the act calls an operation, it is one on pointers. -/
def Act.IsPointer : Act → Prop
  | .call op => op.IsPointer
  | _ => True

instance : DecidablePred Op.IsPointer
  | .rpcEnqueue _ => .isTrue trivial
  | .rpcDequeue => .isTrue trivial
  | .eventTx _ => .isFalse id
  | .eventRx => .isFalse id

instance : DecidablePred Act.IsPointer
  | .call op => inferInstanceAs (Decidable op.IsPointer)
  | .step _ => .isTrue trivial
  | .leave => .isTrue trivial

/-- The queue with its history when only pointers are handed over. -/
def pointerLts [DecidableEq τ] (variant : τ → CasVariant) : Lts (World τ) (τ × Act) :=
  (worldLts variant).restrict fun _ l => l.2.IsPointer

/-- The message an operation was called with. -/
def Op.message : Op → Option (Fin rpcmsgBufferSize)
  | .rpcEnqueue msg => some msg
  | _ => none

/-- The message of the producer that acquired position `p`. -/
def Hist.passed (h : Hist τ) (p : ℕ) : Option (Fin rpcmsgBufferSize) :=
  (h.acquirers .prod)[p]?.bind fun a => a.2.message

theorem Hist.passed_of_acquirer {h : Hist τ} {t : τ} {p : ℕ} {m : Fin rpcmsgBufferSize}
    (hp : (h.acquirers .prod)[p]? = some (t, .rpcEnqueue m)) : h.passed p = some m := by
  simp [Hist.passed, hp, Op.message]

theorem Hist.exists_acquirer_of_passed {h : Hist τ} {p : ℕ} {m : Fin rpcmsgBufferSize}
    (hp : h.passed p = some m) : ∃ t, (h.acquirers .prod)[p]? = some (t, .rpcEnqueue m) := by
  obtain ⟨⟨t, op⟩, hat, hm⟩ := Option.bind_eq_some_iff.mp hp
  cases op with
  | rpcEnqueue msg =>
      cases hm
      exact ⟨t, hat⟩
  | _ => cases hm

theorem Extends.passed {h h' : Hist τ} (he : Extends h h') {p : ℕ} {m : Fin rpcmsgBufferSize}
    (hp : h.passed p = some m) : h'.passed p = some m := by
  obtain ⟨t, ht⟩ := Hist.exists_acquirer_of_passed hp
  exact Hist.passed_of_acquirer (he.acquirer ht)

/-! ### The invariant -/

/-- How far thread `t` got with its pointer. -/
def PointerHolds (w : World τ) (t : τ) : Prop :=
  match w.sys.pc t with
  | .idle => True
  | .acquiring op _ => op.IsPointer
  | .body op _ (.ringWrite id) => op = .rpcEnqueue id
  | .body op _ .ringRead => op = .rpcDequeue
  | .body _ _ _ => False
  | .committing op out _ =>
      (∃ m, op = .rpcEnqueue m ∧ w.sys.queue.ring (slotOf (w.hist.place t)) = rpcmsgMsgToId m) ∨
        (op = .rpcDequeue ∧ ∃ m, out = .pointer m ∧ w.hist.passed (w.hist.place t) = some m)
  | .returned op ret out =>
      op.IsPointer ∧ (ret = 0 → op = .rpcDequeue →
        ∃ m, out = .pointer m ∧ w.hist.passed (w.hist.place t) = some m)
  | .aborted => False

/-- **The pointer invariant.** -/
structure PointerInv (w : World τ) : Prop where
  places : PlacesInv w
  /-- only pointers were handed over -/
  pointers : ∀ s, ∀ a ∈ w.hist.acquirers s, a.2.IsPointer
  /-- a committed id stays in its slot until its consumer has committed -/
  stored : ∀ p, w.hist.published .cons ≤ p → p ∈ w.hist.commits .prod →
    ∃ m, w.hist.passed p = some m ∧ w.sys.queue.ring (slotOf p) = rpcmsgMsgToId m
  delivered : ∀ p out, (p, out) ∈ w.hist.received →
    p ∈ w.hist.commits .prod ∧ ∃ m, out = .pointer m ∧ w.hist.passed p = some m
  pointer : ∀ t, PointerHolds w t

theorem pointerInv_initial : PointerInv (World.initial : World τ) where
  places := placesInv_initial
  pointers _ _ h := absurd h List.not_mem_nil
  stored _ _ h := absurd h List.not_mem_nil
  delivered _ _ h := absurd h List.not_mem_nil
  pointer _ := trivial

/-- A position acquired on the producers' side has a message. -/
theorem PointerInv.passed_of_lt {w : World τ} (hp : PointerInv w) {p : ℕ}
    (h : p < w.hist.acquired .prod) :
    ∃ t m, (w.hist.acquirers .prod)[p]? = some (t, .rpcEnqueue m) ∧ w.hist.passed p = some m := by
  obtain ⟨⟨t, op⟩, hat⟩ : ∃ a, (w.hist.acquirers .prod)[p]? = some a :=
    ⟨_, List.getElem?_eq_getElem h⟩
  have hmem := List.mem_of_getElem? hat
  have hside := hp.places.side .prod _ hmem
  have hpointer := hp.pointers .prod _ hmem
  cases op with
  | rpcEnqueue m => exact ⟨t, m, hat, Hist.passed_of_acquirer hat⟩
  | rpcDequeue => cases hside
  | _ => exact hpointer.elim

/-- A consumer in flight holds a position whose id is in its slot. -/
theorem PointerInv.stored_of_consumer [Fintype τ] {w : World τ} (hp : PointerInv w) (hi : Inv w)
    {t : τ} (h : (w.sys.pc t).InFlight .cons) :
    w.hist.place t ∈ w.hist.commits .prod ∧ ∃ m, w.hist.passed (w.hist.place t) = some m ∧
      w.sys.queue.ring (slotOf (w.hist.place t)) = rpcmsgMsgToId m := by
  obtain ⟨hlo, hhi⟩ := hi.place_range .cons t h
  have hcp := hi.cons_le_prod
  have hc := hp.places.committed_of_lt hi (s := .prod) (p := w.hist.place t) (by omega)
  exact ⟨hc, hp.stored _ hlo hc⟩

/-- A thread's pointer clause survives when its own slot and its place do. -/
theorem PointerHolds.keep {w w' : World τ} {u : τ} (h : PointerHolds w u)
    (he : Extends w.hist w'.hist) (hpc : w'.sys.pc u = w.sys.pc u)
    (hplace : w'.hist.place u = w.hist.place u)
    (hslot : (w.sys.pc u).InFlight .prod →
      w'.sys.queue.ring (slotOf (w.hist.place u)) = w.sys.queue.ring (slotOf (w.hist.place u))) :
    PointerHolds w' u := by
  unfold PointerHolds at h ⊢
  rw [hpc, hplace]
  generalize w.sys.pc u = pc at h hslot
  cases pc with
  | idle => trivial
  | acquiring op a => exact h
  | body op entry b => cases b <;> exact h
  | committing op out c =>
      rcases h with ⟨m, rfl, hst⟩ | ⟨hop, m, hout, hm⟩
      · exact Or.inl ⟨m, rfl, (hslot rfl).trans hst⟩
      · exact Or.inr ⟨hop, m, hout, he.passed hm⟩
  | returned op ret out =>
      refine ⟨h.1, fun hret hop => ?_⟩
      obtain ⟨m, hout, hm⟩ := h.2 hret hop
      exact ⟨m, hout, he.passed hm⟩
  | aborted => exact h

/-! ### One step -/

section Step

variable [Fintype τ] [DecidableEq τ] {w w' : World τ} {t : τ}

/-- The slots of positions other than the one `t` holds as a producer are as before. -/
def OtherIdsKept (w w' : World τ) (t : τ) : Prop :=
  ∀ p, w.hist.published .cons ≤ p → p < w.hist.acquired .prod →
    ((w.sys.pc t).InFlight .prod → p ≠ w.hist.place t) →
    w'.sys.queue.ring (slotOf p) = w.sys.queue.ring (slotOf p)

theorem PointerInv.quiet {pc' : Pc} (hp : PointerInv w) (hi : Inv w) (hq : QuietKind w w' t pc')
    (hslot : OtherIdsKept w w' t) (hown : PointerHolds w' t) : PointerInv w' := by
  have hext : Extends w.hist w'.hist :=
    ⟨fun s => by rw [hq.quiet.acquirers], fun r hr => by rw [hq.received]; exact hr⟩
  have hpassed : ∀ p, w'.hist.passed p = w.hist.passed p := fun p => by
    rw [Hist.passed, hq.quiet.acquirers, Hist.passed]
  refine ⟨hp.places.quiet hq, fun s => ?_, fun p hlo hm => ?_, fun p out hm => ?_, fun u => ?_⟩
  · rw [hq.quiet.acquirers]
    exact hp.pointers s
  · rw [hq.quiet.published] at hlo
    rw [hq.quiet.commits] at hm
    obtain ⟨m, hm', hst⟩ := hp.stored p hlo hm
    refine ⟨m, by rw [hpassed]; exact hm', ?_⟩
    rw [hslot p hlo (hp.places.commits_lt _ p hm)
      fun hfly he => hp.places.held .prod t hfly (he ▸ hm)]
    exact hst
  · rw [hq.received] at hm
    rw [hpassed, hq.quiet.commits]
    exact hp.delivered p out hm
  · by_cases hut : u = t
    · exact hut ▸ hown
    · refine (hp.pointer u).keep hext (by rw [hq.quiet.pc, Function.update_of_ne hut])
        (by rw [hq.quiet.place]) fun hfly => ?_
      obtain ⟨hlo, hhi⟩ := hi.place_range .prod u hfly
      obtain ⟨h1, h2, _, _⟩ := hi.positions
      exact hslot _ (by omega) hhi fun hflyt he => hut (hi.place_inj .prod u t hfly hflyt he)

omit [Fintype τ] in
theorem PointerInv.afterAcquire {op : Op} {ot : Marker} (hp : PointerInv w)
    (hpc : w.sys.pc t = .acquiring op (.cas ot)) : PointerInv (w.afterAcquire t op ot) := by
  have hev : op.IsPointer := by
    have := hp.pointer t
    simpa only [PointerHolds, hpc] using this
  have hext : Extends w.hist (w.afterAcquire t op ot).hist :=
    extends_record w.hist t (.acquired op)
  have hadv : Advance w (w.afterAcquire t op ot) t := afterAcquire_advance
  have hself : (w.afterAcquire t op ot).sys.pc t = .body op ot.pos op.body :=
    Function.update_self ..
  have hring : (w.afterAcquire t op ot).sys.queue.ring = w.sys.queue.ring :=
    Queue.setBound_ring ..
  refine ⟨hp.places.afterAcquire hpc, fun s a ha => ?_, fun p hlo hm => ?_, fun p out hm => ?_,
    fun u => ?_⟩
  · have ha' : a ∈ Function.update w.hist.acquirers op.side
        (w.hist.acquirers op.side ++ [(t, op)]) s := ha
    by_cases hs : s = op.side
    · subst hs
      rw [Function.update_self, List.mem_append, List.mem_singleton] at ha'
      rcases ha' with hold | rfl
      · exact hp.pointers _ a hold
      · exact hev
    · rw [Function.update_of_ne hs] at ha'
      exact hp.pointers s a ha'
  · obtain ⟨m, hm', hst⟩ := hp.stored p hlo hm
    exact ⟨m, hext.passed hm', by rw [hring]; exact hst⟩
  · obtain ⟨hc, m, hout, hm'⟩ := hp.delivered p out hm
    exact ⟨hc, m, hout, hext.passed hm'⟩
  · by_cases hut : u = t
    · subst hut
      simp only [PointerHolds, hself]
      cases op with
      | rpcEnqueue id => rfl
      | rpcDequeue => rfl
      | _ => exact hev.elim
    · exact (hp.pointer u).keep hext (hadv.pc u hut) (hadv.place u hut) fun _ => by rw [hring]

/-- A producer's commit makes its id a stored one; a consumer's commit delivers what it read. -/
theorem PointerInv.afterCommit {op : Op} {out : Out} {oh tl : Marker} (hp : PointerInv w)
    (hi : Inv w) (hpc : w.sys.pc t = .committing op out (.cas oh tl)) :
    PointerInv (w.afterCommit t op out oh tl) := by
  have hown := hp.pointer t
  simp only [PointerHolds, hpc] at hown
  have hfly : (w.sys.pc t).InFlight op.side := by simp [hpc, Pc.InFlight]
  have hacq := hp.places.acquirer t op (by simp [hpc, Pc.pastOp])
  have hext : Extends w.hist (w.afterCommit t op out oh tl).hist :=
    extends_record w.hist t (.committed op (decide (LastCommitter oh tl)) out)
  have hadv : Advance w (w.afterCommit t op out oh tl) t := afterCommit_advance hi
  have hpassed : ∀ p, (w.afterCommit t op out oh tl).hist.passed p = w.hist.passed p := fun _ => rfl
  have hring : (w.afterCommit t op out oh tl).sys.queue.ring = w.sys.queue.ring :=
    Queue.setBound_ring ..
  have hself : (w.afterCommit t op out oh tl).sys.pc t = .returned op 0 out :=
    Function.update_self ..
  refine ⟨hp.places.afterCommit hi hpc, hp.pointers, fun p hlo hm => ?_, fun p o hm => ?_,
    fun u => ?_⟩
  · have hlo' : w.hist.published .cons ≤ p := le_trans (afterCommit_published hi .cons) hlo
    rw [hpassed, hring]
    rcases mem_afterCommit_commits.mp hm with hc | ⟨hside, rfl⟩
    · exact hp.stored p hlo' hc
    · rcases hown with ⟨m, rfl, hst⟩ | ⟨rfl, _⟩
      · exact ⟨m, Hist.passed_of_acquirer hacq, hst⟩
      · cases hside
  · rw [hpassed, mem_afterCommit_commits]
    have hcase : (p, o) ∈ w.hist.received ∨ (op = .rpcDequeue ∧ p = w.hist.place t ∧ o = out) := by
      rcases hown with ⟨m, rfl, _⟩ | ⟨rfl, _⟩
      · exact Or.inl (by simpa [World.afterCommit, Hist.record, Op.side] using hm)
      · simpa [World.afterCommit, Hist.record, Op.side] using hm
    rcases hcase with hold | ⟨rfl, rfl, rfl⟩
    · obtain ⟨hc, hm'⟩ := hp.delivered p o hold
      exact ⟨Or.inl hc, hm'⟩
    · rcases hown with ⟨m, hop, _⟩ | ⟨_, m, rfl, hm'⟩
      · cases hop
      · exact ⟨Or.inl (hp.stored_of_consumer hi hfly).1, m, rfl, hm'⟩
  · by_cases hut : u = t
    · subst hut
      simp only [PointerHolds, hself]
      rcases hown with ⟨m, rfl, _⟩ | ⟨rfl, m, hout, hm⟩
      · exact ⟨trivial, fun _ h => by cases h⟩
      · exact ⟨trivial, fun _ _ => ⟨m, hout, hm⟩⟩
    · exact (hp.pointer u).keep hext (hadv.pc u hut) (hadv.place u hut) fun _ => by rw [hring]

/-- The one ring access of an element function. -/
theorem pointerHolds_body {op : Op} {entry : BitVec 32} {b : Body} {word : Option (Fin 4)}
    {q' : Queue} {buf' : RpcMsgBuffer} {r : BodyResult} {w₁ : World τ} (hp : PointerInv w)
    (hi : Inv w) (hpc : w.sys.pc t = .body op entry b)
    (h : bodyStep op (ringIndex entry) w.sys.queue w.sys.buffer b word = some (q', buf', r))
    (hw₁ : w₁ = ⟨⟨q', buf', Function.update w.sys.pc t (r.pc op entry)⟩, w.hist⟩) :
    PointerHolds w₁ t ∧ OtherIdsKept w w₁ t ∧ buf' = w.sys.buffer := by
  have hown := hp.pointer t
  have hentry := hi.copies t
  simp only [PointerHolds, hpc] at hown
  simp only [CopiesHold, hpc] at hentry
  have hidx : ringIndex entry = slotOf (w.hist.place t) := by rw [hentry, ringIndex_ofNat]
  rw [hidx] at h
  have hfly : (w.sys.pc t).InFlight op.side := by simp [hpc, Pc.InFlight]
  subst hw₁
  simp only [PointerHolds, Function.update_self]
  cases b with
  | ringWrite id =>
      subst hown
      cases word with
      | some i => simp [bodyStep] at h
      | none =>
          simp only [bodyStep, Option.some.injEq, Prod.mk.injEq] at h
          obtain ⟨rfl, rfl, rfl⟩ := h
          refine ⟨Or.inl ⟨id, rfl, Function.update_self ..⟩, fun p hlo hhi hne => ?_, rfl⟩
          -- another live position has another slot
          refine Function.update_of_ne (fun he => ?_) _ _
          obtain ⟨hplo, hphi⟩ := hi.place_range .prod t hfly
          obtain ⟨h1, h2, _, _⟩ := hi.positions
          exact hne hfly (hi.slot_inj hlo hhi (by omega) hphi he)
  | ringRead =>
      subst hown
      obtain ⟨_, m, hm, hst⟩ := hp.stored_of_consumer hi hfly
      cases word with
      | some i => simp [bodyStep] at h
      | none =>
          simp only [bodyStep, hst, rpcmsgIdToMsg_msgToId, Option.some.injEq, Prod.mk.injEq] at h
          obtain ⟨rfl, rfl, rfl⟩ := h
          exact ⟨Or.inr ⟨rfl, m, rfl, hm⟩, fun _ _ _ _ => rfl, rfl⟩
  | copyTo done => exact hown.elim
  | copyFrom id done data => exact hown.elim

/-- **The step lemma.** -/
theorem PointerInv.step {variant : τ → CasVariant} {l : τ × Act} (hp : PointerInv w) (hi : Inv w)
    (h : (pointerLts variant).step w l w') : PointerInv w' := by
  obtain ⟨t, act⟩ := l
  obtain ⟨hev, hstep⟩ := h
  rcases step_kinds hi hstep with ⟨pc', hq⟩ | ⟨op, ot, hpc, rfl⟩ | ⟨op, out, oh, tl, hpc, _, _, rfl⟩
  · obtain ⟨hfresh, s', e, hsys, rfl⟩ := hstep
    obtain ⟨q', buf', pc'', rfl, hmove⟩ := sysStep_moves hsys
    have hown := hp.pointer t
    generalize hpc : w.sys.pc t = pc at hmove
    simp only [PointerHolds, hpc] at hown
    cases hmove with
    | body op entry b word hbody =>
        obtain ⟨hpay, hslots, _⟩ := pointerHolds_body hp hi hpc hbody rfl
        exact hp.quiet hi hq hslots hpay
    | call op =>
        refine hp.quiet hi hq (fun _ _ _ _ => rfl) ?_
        simp only [PointerHolds, Function.update_self]
        exact hev
    | acquireLost op ot hne =>
        refine hp.quiet hi hq (fun _ _ _ _ => rfl) ?_
        simpa only [PointerHolds, Function.update_self] using hown
    | commitLost op out oh tl hne =>
        refine hp.quiet hi hq (fun _ _ _ _ => rfl) ?_
        simp only [PointerHolds, Function.update_self]
        cases variant t <;> exact hown
    | full op ot hzero =>
        refine hp.quiet hi hq (fun _ _ _ _ => rfl) ?_
        simp only [PointerHolds, Function.update_self]
        exact ⟨hown, fun h => absurd h (by decide)⟩
    | acquire op ot heq =>
        have hself := congrFun hq.quiet.pc t
        have hnot := (hq.quiet.inFlight op.side).mp
        simp only [Function.update_self] at hself
        rw [← hself, hpc] at hnot
        exact absurd (hnot rfl) (by simp [Pc.InFlight])
    | commit op out oh tl heq =>
        have hself := congrFun hq.quiet.pc t
        simp only [Function.update_self] at hself
        exact absurd hself.symm (hq.running op out)
    | loadHead op out =>
        refine hp.quiet hi hq (fun _ _ _ _ => rfl) ?_
        simp only [PointerHolds, Function.update_self]
        exact hown
    | sampleTail op out oh =>
        refine hp.quiet hi hq (fun _ _ _ _ => rfl) ?_
        simp only [PointerHolds, Function.update_self]
        exact hown
    | leave op ret out =>
        refine hp.quiet hi hq (fun _ _ _ _ => rfl) ?_
        simp [PointerHolds]
    | _ =>
        refine hp.quiet hi hq (fun _ _ _ _ => rfl) ?_
        simpa only [PointerHolds, Function.update_self] using hown
  · exact hp.afterAcquire hpc
  · exact hp.afterCommit hi hpc

theorem pointerInv_of_reachable {variant : τ → CasVariant} (h : (pointerLts variant).Reachable w) :
    PointerInv w := by
  refine h.invariant (I := PointerInv) (fun w hw => ?_) fun u l v hr hp hs => ?_
  · cases hw
    exact pointerInv_initial
  · exact hp.step (inv_of_reachable hr.of_restrict) hs

/-! ### Delivery -/

/-- What a queue of pointers promises in a state with its history. -/
structure PointerDelivery (w : World τ) : Prop where
  /-- what is received at `p` is the pointer of the producer that acquired `p`, who has committed,
  and the receiver is the consumer that acquired `p` -/
  inOrder : ∀ p out, (p, out) ∈ w.hist.received → p ∈ w.hist.commits .prod ∧
    ∃ t u m, (w.hist.acquirers .prod)[p]? = some (t, .rpcEnqueue m) ∧ out = .pointer m ∧
      (w.hist.acquirers .cons)[p]? = some (u, .rpcDequeue)
  /-- no position is received twice -/
  once : (w.hist.received.map Prod.fst).Nodup
  /-- a call that returns 0 committed the position it acquired with its operation; a dequeue
  received there -/
  returned : ∀ t op out, w.sys.pc t = .returned op 0 out →
    (w.hist.acquirers op.side)[w.hist.place t]? = some (t, op) ∧
      w.hist.place t ∈ w.hist.commits op.side ∧
      (op = .rpcDequeue → (w.hist.place t, out) ∈ w.hist.received)
  /-- a committed id that is not consumed yet is in its slot -/
  kept : ∀ p, p ∈ w.hist.commits .prod → p ∉ w.hist.commits .cons →
    ∃ t m, (w.hist.acquirers .prod)[p]? = some (t, .rpcEnqueue m) ∧
      w.sys.queue.ring (slotOf p) = rpcmsgMsgToId m
  /-- no assertion on a message id fails -/
  noAbort : ∀ t, w.sys.pc t ≠ .aborted

/-- **Every pointer is handed over once, in order.**  Whatever the number of threads, the build of
each and the order of their steps, as long as the copies of markers that they use are fresh, in
every reachable state of a queue of pointers the consumer of a position gets the pointer of its
producer, no position is received twice, a call that returned 0 has taken effect, and what is
committed stays in its slot until it is consumed. -/
theorem pointer_delivery {variant : τ → CasVariant} (h : (pointerLts variant).Reachable w) :
    PointerDelivery w := by
  have hi := inv_of_reachable h.of_restrict
  have hp := pointerInv_of_reachable h
  refine
    { inOrder := fun p out hm => ?_, once := ?_, returned := fun t op out hpc => ?_,
      kept := fun p hc hnot => ?_, noAbort := fun t hpc => ?_ }
  · obtain ⟨hc, m, rfl, hpassed⟩ := hp.delivered p out hm
    obtain ⟨t, ht⟩ := Hist.exists_acquirer_of_passed hpassed
    have hcons : p ∈ w.hist.commits .cons := by
      rw [← hp.places.received]
      exact List.mem_map_of_mem hm
    obtain ⟨⟨u, op⟩, hu⟩ : ∃ a, (w.hist.acquirers .cons)[p]? = some a :=
      ⟨_, List.getElem?_eq_getElem (hp.places.commits_lt .cons p hcons)⟩
    have hside := hp.places.side .cons _ (List.mem_of_getElem? hu)
    have hpointer := hp.pointers .cons _ (List.mem_of_getElem? hu)
    cases op with
    | rpcDequeue => exact ⟨hc, t, u, m, ht, rfl, hu⟩
    | rpcEnqueue msg => cases hside
    | _ => exact hpointer.elim
  · rw [hp.places.received]
    exact hp.places.commits_nodup .cons
  · obtain ⟨hc, hr⟩ := hp.places.returned t op out hpc
    refine ⟨hp.places.acquirer t op (by simp [hpc, Pc.pastOp]), hc, ?_⟩
    rintro rfl
    exact hr rfl
  · have hlo : w.hist.published .cons ≤ p :=
      Nat.le_of_not_lt fun hlt => hnot (hp.places.committed_of_lt hi hlt)
    obtain ⟨m, hpassed, hst⟩ := hp.stored p hlo hc
    obtain ⟨t, ht⟩ := Hist.exists_acquirer_of_passed hpassed
    exact ⟨t, m, ht, hst⟩
  · have hown := hp.pointer t
    simp only [PointerHolds, hpc] at hown

end Step

/-- Playing a script that hands over pointers only stays within the reachable states. -/
theorem pointerLts_reachable_play [DecidableEq τ] {variant : τ → CasVariant} {w : World τ}
    {ls : List (τ × Act)} (h : (pointerLts variant).Reachable w)
    (hptr : ∀ l ∈ ls, l.2.IsPointer) : (pointerLts variant).Reachable (w.play variant ls) := by
  induction ls generalizing w with
  | nil => exact h
  | cons l ls ih =>
      refine ih ?_ fun k hk => hptr k (List.mem_cons_of_mem _ hk)
      rcases World.exec_cases variant w l with hs | hs
      · exact h.step ⟨hptr l List.mem_cons_self, hs⟩
      · rw [hs]
        exact h

/-- Message 3 is enqueued by one thread, then dequeued by the other. -/
def onePointer : World Bool :=
  World.initial.play (fun t => if t then .kernel else .user)
    ((false, .call (.rpcEnqueue ⟨3, by decide⟩)) :: soloSteps false 4 [] 4 ++
      (true, .call .rpcDequeue) :: soloSteps true 5 [] 3)

/-- `pointer_delivery` after one pointer went through the queue. -/
theorem pointer_delivery_onePointer :
    ∃ t m, (onePointer.hist.acquirers .prod)[0]? = some (t, .rpcEnqueue m) ∧
      onePointer.hist.received = [(0, .pointer m)] := by
  have hreach : (pointerLts _).Reachable onePointer :=
    pointerLts_reachable_play (.init rfl) (by decide)
  have h := pointer_delivery hreach
  have hlen : onePointer.hist.received.map Prod.fst = [0] := by decide
  obtain ⟨⟨p, out⟩, hr, hpos⟩ := List.map_eq_singleton_iff.mp hlen
  have hp : p = 0 := hpos
  subst hp
  obtain ⟨_, t, u, m, ht, hout, _⟩ := h.inOrder 0 out (by rw [hr]; exact List.mem_singleton_self _)
  exact ⟨t, m, ht, by rw [hr, hout]⟩

end TiiSel4Vm.RpcQueue
