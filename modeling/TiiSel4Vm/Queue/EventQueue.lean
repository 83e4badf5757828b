import TiiSel4Vm.Queue.Order

/-!
# Event queues: every message is delivered once and whole

Threads call only `rpcmsg_event_tx` and `rpcmsg_event_rx` on the queue.  `PayloadInv` ties the ring
and the message words to the history: a slot holds the message of its producer from that producer's
commit until its consumer's commit, and in between copies are made word by word.  Live positions lie
in one window of 32, so two threads in flight never share a slot.

* `PayloadInv.step` — one step keeps the payload invariant;
* `event_delivery` — in every reachable state what was received is what was sent, once, by the
  consumer of that position, and committed messages are kept until they are consumed.
-/

namespace TiiSel4Vm.RpcQueue

open TiiSel4Vm.Transition TiiSel4Vm.WrapCounter

variable {τ : Type}

/-! ### Event queues -/

/-- `rpcmsg_event_tx` or `rpcmsg_event_rx`. -/
def Op.IsEvent : Op → Prop
  | .eventTx _ => True
  | .eventRx => True
  | _ => False

/-- If the act calls an operation, it is an event operation. -/
def Act.IsEvent : Act → Prop
  | .call op => op.IsEvent
  | _ => True

instance : DecidablePred Op.IsEvent := fun op => by
  cases op <;> unfold Op.IsEvent <;> infer_instance

instance : DecidablePred Act.IsEvent := fun act => by
  cases act <;> unfold Act.IsEvent <;> infer_instance

/-- The queue with its history when only event operations are called. -/
def eventLts [DecidableEq τ] (variant : τ → CasVariant) : Lts (World τ) (τ × Act) :=
  (worldLts variant).restrict fun _ l => l.2.IsEvent

/-- Playing a script that calls event operations only stays within the reachable states. -/
theorem eventLts_reachable_play [DecidableEq τ] {variant : τ → CasVariant} {w : World τ}
    {ls : List (τ × Act)} (h : (eventLts variant).Reachable w)
    (hev : ∀ l ∈ ls, l.2.IsEvent) :
    (eventLts variant).Reachable (w.play variant ls) := by
  induction ls generalizing w with
  | nil => exact h
  | cons l ls ih =>
      refine ih ?_ fun k hk => hev k (List.mem_cons_of_mem _ hk)
      rcases World.exec_cases variant w l with hs | hs
      · exact h.step ⟨hev l List.mem_cons_self, hs⟩
      · rw [hs]
        exact h

/-- The message of the producer that acquired position `p`. -/
def Hist.sent (h : Hist τ) (p : ℕ) : Option RpcMsg :=
  match (h.acquirers .prod)[p]? with
  | some (_, .eventTx m) => some m
  | _ => none

theorem Hist.sent_of_acquirer {h : Hist τ} {t : τ} {p : ℕ} {m : RpcMsg}
    (hp : (h.acquirers .prod)[p]? = some (t, .eventTx m)) : h.sent p = some m := by
  simp only [Hist.sent, hp]

theorem Hist.exists_acquirer_of_sent {h : Hist τ} {p : ℕ} {m : RpcMsg} (hs : h.sent p = some m) :
    ∃ t, (h.acquirers .prod)[p]? = some (t, .eventTx m) := by
  unfold Hist.sent at hs
  split at hs
  · rename_i t m' hat
    cases hs
    exact ⟨t, hat⟩
  · cases hs

/-! ### The invariant -/

/-- Slot `p` of the ring and the message table holds message `m`, complete. -/
def Stored (s : Sys τ) (p : ℕ) (m : RpcMsg) : Prop :=
  s.buffer (slotOf p) = m ∧ s.queue.ring (slotOf p) = rpcmsgMsgToId (slotOf p)

/-- The operation a thread is in flight with. -/
def Pc.flightOp : Pc → Option Op
  | .body op _ _ => some op
  | .committing op _ _ => some op
  | _ => none

/-- How far thread `t` got with its message. -/
def PayloadHolds (w : World τ) (t : τ) : Prop :=
  match w.sys.pc t with
  | .idle => True
  | .acquiring op _ => op.IsEvent
  | .body op _ (.copyTo done) =>
      ∃ m, op = .eventTx m ∧ ∀ i ∈ done, w.sys.buffer (slotOf (w.hist.place t)) i = m i
  | .body op _ (.ringWrite id) =>
      id = slotOf (w.hist.place t) ∧ op = .eventTx (w.sys.buffer id)
  | .body op _ .ringRead => op = .eventRx
  | .body op _ (.copyFrom id done data) =>
      op = .eventRx ∧ id = slotOf (w.hist.place t) ∧
        ∃ m, w.hist.sent (w.hist.place t) = some m ∧ ∀ i ∈ done, data i = m i
  | .committing op out _ =>
      (∃ m, op = .eventTx m ∧ Stored w.sys (w.hist.place t) m) ∨
        (op = .eventRx ∧ ∃ m, out = .copy m ∧ w.hist.sent (w.hist.place t) = some m)
  | .returned op ret out =>
      op = .eventRx → ret = 0 → (w.hist.place t, out) ∈ w.hist.received ∧
        (w.hist.acquirers .cons)[w.hist.place t]? = some (t, .eventRx)
  | .aborted => False

/-- **The payload invariant.** -/
structure PayloadInv (w : World τ) : Prop where
  /-- an acquired position is committed or held -/
  covered : ∀ s p, p < w.hist.acquired s →
    p ∈ w.hist.commits s ∨ ∃ t, (w.sys.pc t).InFlight s ∧ w.hist.place t = p
  commits_lt : ∀ s p, p ∈ w.hist.commits s → p < w.hist.acquired s
  commits_nodup : ∀ s, (w.hist.commits s).Nodup
  held : ∀ s t, (w.sys.pc t).InFlight s → w.hist.place t ∉ w.hist.commits s
  acquirer : ∀ t op, (w.sys.pc t).flightOp = some op →
    (w.hist.acquirers op.side)[w.hist.place t]? = some (t, op)
  /-- a committed message stays in its slot until its consumer has committed -/
  stored : ∀ p, w.hist.published .cons ≤ p → p ∈ w.hist.commits .prod →
    ∃ m, w.hist.sent p = some m ∧ Stored w.sys p m
  received : w.hist.received.map Prod.fst = w.hist.commits .cons
  delivered : ∀ p out, (p, out) ∈ w.hist.received →
    (∃ m, out = .copy m ∧ w.hist.sent p = some m) ∧ p ∈ w.hist.commits .prod ∧
      ∃ t, (w.hist.acquirers .cons)[p]? = some (t, .eventRx)
  payload : ∀ t, PayloadHolds w t

section Facts

variable [Fintype τ] {w : World τ}

/-- Everything below the head position of a side is committed. -/
theorem PayloadInv.committed_of_lt (hp : PayloadInv w) (hi : Inv w) {s : Side} {p : ℕ}
    (h : p < w.hist.published s) : p ∈ w.hist.commits s := by
  have hle : w.hist.published s ≤ w.hist.acquired s :=
    le_trans (hi.published_le s) (hi.committed_le s)
  rcases hp.covered s p (by omega) with hc | ⟨t, hfly, rfl⟩
  · exact hc
  · have := (hi.place_range s t hfly).1
    omega

/-- A consumer in flight holds a position whose message is stored. -/
theorem PayloadInv.stored_of_consumer (hp : PayloadInv w) (hi : Inv w) {t : τ}
    (h : (w.sys.pc t).InFlight .cons) :
    w.hist.place t ∈ w.hist.commits .prod ∧
      ∃ m, w.hist.sent (w.hist.place t) = some m ∧ Stored w.sys (w.hist.place t) m := by
  obtain ⟨hlo, hhi⟩ := hi.place_range .cons t h
  have hcp := hi.cons_le_prod
  have hc := hp.committed_of_lt hi (s := .prod) (p := w.hist.place t) (by omega)
  exact ⟨hc, hp.stored _ hlo hc⟩

/-- Two positions of the live window share a slot only if they are equal. -/
theorem Inv.slot_inj (hi : Inv w) {p p' : ℕ} (hlo : w.hist.published .cons ≤ p)
    (hhi : p < w.hist.acquired .prod) (hlo' : w.hist.published .cons ≤ p')
    (hhi' : p' < w.hist.acquired .prod) (h : slotOf p = slotOf p') : p = p' := by
  have hwin := hi.prod_le_cons
  exact mod_inj_in_window hlo (by omega) hlo' (by omega) (congrArg Fin.val h)

end Facts

theorem payloadInv_initial : PayloadInv (World.initial : World τ) where
  covered _ _ h := absurd h (Nat.not_lt_zero _)
  commits_lt _ _ h := absurd h List.not_mem_nil
  commits_nodup _ := List.nodup_nil
  held _ _ h := h.elim
  acquirer _ _ h := by cases h
  stored _ _ h := absurd h List.not_mem_nil
  received := rfl
  delivered _ _ h := absurd h List.not_mem_nil
  payload _ := trivial

/-! ### Histories only grow -/

/-- The history of `w'` extends that of `w`. -/
structure Extends (h h' : Hist τ) : Prop where
  acquirers : ∀ s, h.acquirers s <+: h'.acquirers s
  received : ∀ r ∈ h.received, r ∈ h'.received

theorem Extends.acquirer {h h' : Hist τ} (he : Extends h h') {s : Side} {p : ℕ} {a : τ × Op}
    (hp : (h.acquirers s)[p]? = some a) : (h'.acquirers s)[p]? = some a := by
  obtain ⟨rest, hrest⟩ := he.acquirers s
  have hlt : p < (h.acquirers s).length := (List.getElem?_eq_some_iff.mp hp).1
  rw [← hrest, List.getElem?_append_left hlt]
  exact hp

theorem Extends.sent {h h' : Hist τ} (he : Extends h h') {p : ℕ} {m : RpcMsg}
    (hp : h.sent p = some m) : h'.sent p = some m := by
  unfold Hist.sent at hp
  split at hp
  · rename_i t m' hat
    cases hp
    exact Hist.sent_of_acquirer (he.acquirer hat)
  · cases hp

theorem Extends.acquired_le {h h' : Hist τ} (he : Extends h h') (s : Side) :
    h.acquired s ≤ h'.acquired s := (he.acquirers s).length_le

theorem extends_record [DecidableEq τ] (h : Hist τ) (t : τ) (e : Event) :
    Extends h (h.record t e) := by
  cases e with
  | acquired op =>
      refine ⟨fun s => ?_, fun _ hr => hr⟩
      by_cases hs : s = op.side
      · subst hs
        simp [Hist.record]
      · simp [Hist.record, Function.update_of_ne hs]
  | committed op publish out =>
      refine ⟨fun _ => List.prefix_refl _, fun r hr => ?_⟩
      simp only [Hist.record]
      split
      · exact List.mem_append_left _ hr
      · exact hr
  | _ => exact ⟨fun _ => List.prefix_refl _, fun _ hr => hr⟩

/-- A thread's payload clause survives when its own slot and its place do. -/
theorem PayloadHolds.keep {w w' : World τ} {u : τ} (h : PayloadHolds w u)
    (he : Extends w.hist w'.hist) (hpc : w'.sys.pc u = w.sys.pc u)
    (hplace : w'.hist.place u = w.hist.place u)
    (hslot : (w.sys.pc u).InFlight .prod →
      w'.sys.buffer (slotOf (w.hist.place u)) = w.sys.buffer (slotOf (w.hist.place u)) ∧
        w'.sys.queue.ring (slotOf (w.hist.place u)) = w.sys.queue.ring (slotOf (w.hist.place u))) :
    PayloadHolds w' u := by
  unfold PayloadHolds at h ⊢
  rw [hpc, hplace]
  generalize w.sys.pc u = pc at h hslot
  cases pc with
  | idle => trivial
  | acquiring op a => exact h
  | body op entry b =>
      cases b with
      | copyTo done =>
          obtain ⟨m, rfl, hm⟩ := h
          exact ⟨m, rfl, by rw [(hslot rfl).1]; exact hm⟩
      | ringWrite id =>
          obtain ⟨rfl, rfl⟩ := h
          exact ⟨rfl, by rw [(hslot rfl).1]⟩
      | ringRead => exact h
      | copyFrom id done data =>
          obtain ⟨hop, hid, m, hm, hdata⟩ := h
          exact ⟨hop, hid, m, he.sent hm, hdata⟩
  | committing op out c =>
      rcases h with ⟨m, rfl, hst⟩ | ⟨hop, m, hout, hm⟩
      · refine Or.inl ⟨m, rfl, ?_⟩
        obtain ⟨hb, hr⟩ := hslot rfl
        exact ⟨hb.trans hst.1, hr.trans hst.2⟩
      · exact Or.inr ⟨hop, m, hout, he.sent hm⟩
  | returned op ret out =>
      intro hop hret
      obtain ⟨h1, h2⟩ := h hop hret
      exact ⟨he.received _ h1, he.acquirer h2⟩
  | aborted => exact h

/-! ### Quiet steps, acquisitions and commits -/

section Step

variable [Fintype τ] [DecidableEq τ] {w w' : World τ} {t : τ}

/-- The slots of positions other than the one `t` holds as a producer are as before. -/
def OtherSlotsKept (w w' : World τ) (t : τ) : Prop :=
  ∀ p, w.hist.published .cons ≤ p → p < w.hist.acquired .prod →
    ((w.sys.pc t).InFlight .prod → p ≠ w.hist.place t) →
    w'.sys.buffer (slotOf p) = w.sys.buffer (slotOf p) ∧
      w'.sys.queue.ring (slotOf p) = w.sys.queue.ring (slotOf p)

theorem PayloadInv.quiet {pc' : Pc} (hp : PayloadInv w) (hi : Inv w) (hq : Quiet w w' t pc')
    (hrec : w'.hist.received = w.hist.received)
    (hop : ∀ op, pc'.flightOp = some op → (w.sys.pc t).flightOp = some op)
    (hslot : OtherSlotsKept w w' t) (hown : PayloadHolds w' t) : PayloadInv w' := by
  have hext : Extends w.hist w'.hist :=
    ⟨fun s => by rw [hq.acquirers], fun r hr => by rw [hrec]; exact hr⟩
  have hsent : ∀ p, w'.hist.sent p = w.hist.sent p := fun p => by
    unfold Hist.sent
    rw [hq.acquirers]
  refine
    { covered := fun s p hlt => ?_, commits_lt := fun s p hm => ?_, commits_nodup := fun s => ?_,
      held := fun s u hu => ?_, acquirer := fun u op hu => ?_, stored := fun p hlo hm => ?_,
      received := ?_, delivered := fun p out hm => ?_, payload := fun u => ?_ }
  · rw [hq.acquired] at hlt
    rw [hq.commits, hq.place]
    refine (hp.covered s p hlt).imp id ?_
    rintro ⟨u, hu, hpl⟩
    exact ⟨u, (hq.inFlight_iff s u).mpr hu, hpl⟩
  · rw [hq.commits] at hm
    rw [hq.acquired]
    exact hp.commits_lt s p hm
  · rw [hq.commits]
    exact hp.commits_nodup s
  · rw [hq.commits, hq.place]
    exact hp.held s u ((hq.inFlight_iff s u).mp hu)
  · rw [hq.acquirers, hq.place]
    by_cases hut : u = t
    · subst hut
      rw [hq.pc, Function.update_self] at hu
      exact hp.acquirer u op (hop op hu)
    · rw [hq.pc, Function.update_of_ne hut] at hu
      exact hp.acquirer u op hu
  · rw [hq.published] at hlo
    rw [hq.commits] at hm
    obtain ⟨m, hm', hst⟩ := hp.stored p hlo hm
    obtain ⟨hb, hr⟩ := hslot p hlo (hp.commits_lt _ p hm) fun hfly he =>
      hp.held .prod t hfly (he ▸ hm)
    exact ⟨m, by rw [hsent]; exact hm', hb.trans hst.1, hr.trans hst.2⟩
  · rw [hrec, hq.commits]
    exact hp.received
  · rw [hrec] at hm
    rw [hsent, hq.commits, hq.acquirers]
    exact hp.delivered p out hm
  · by_cases hut : u = t
    · exact hut ▸ hown
    · refine (hp.payload u).keep hext (by rw [hq.pc, Function.update_of_ne hut]) (by rw [hq.place])
        fun hfly => ?_
      obtain ⟨hlo, hhi⟩ := hi.place_range .prod u hfly
      obtain ⟨h1, h2, _, _⟩ := hi.positions
      exact hslot _ (by omega) hhi fun hflyt he => hut (hi.place_inj .prod u t hfly hflyt he)

omit [Fintype τ] in
/-- **Acquisitions keep the payload invariant.** -/
theorem PayloadInv.afterAcquire {op : Op} {ot : Marker} (hp : PayloadInv w)
    (hpc : w.sys.pc t = .acquiring op (.cas ot)) : PayloadInv (w.afterAcquire t op ot) := by
  have hev : op.IsEvent := by
    have := hp.payload t
    simpa only [PayloadHolds, hpc] using this
  have hext : Extends w.hist (w.afterAcquire t op ot).hist :=
    extends_record w.hist t (.acquired op)
  have hadv : Advance w (w.afterAcquire t op ot) t := afterAcquire_advance
  have hplace : (w.afterAcquire t op ot).hist.place t = w.hist.acquired op.side :=
    Function.update_self ..
  have hself : (w.afterAcquire t op ot).sys.pc t = .body op ot.pos op.body :=
    Function.update_self ..
  have hne : ∀ s u, (w.sys.pc u).InFlight s → u ≠ t := by
    rintro s u hu rfl
    simp [hpc, Pc.InFlight] at hu
  have hring : (w.afterAcquire t op ot).sys.queue.ring = w.sys.queue.ring :=
    Queue.setBound_ring ..
  refine
    { covered := fun s p hlt => ?_, commits_lt := fun s p hm => ?_,
      commits_nodup := hp.commits_nodup, held := fun s u hu => ?_, acquirer := fun u o hu => ?_,
      stored := fun p hlo hm => ?_, received := hp.received, delivered := fun p out hm => ?_,
      payload := fun u => ?_ }
  · have hold : p < w.hist.acquired s ∨ (op.side = s ∧ p = w.hist.acquired s) := by
      by_cases hs : s = op.side
      · subst hs
        have hgrown : (w.afterAcquire t op ot).hist.acquired op.side
            = w.hist.acquired op.side + 1 := record_acquired_same _
        rw [hgrown] at hlt
        exact (Nat.lt_succ_iff_lt_or_eq.mp hlt).imp id fun he => ⟨rfl, he⟩
      · have hsame : (w.afterAcquire t op ot).hist.acquired s = w.hist.acquired s :=
          record_acquired_ne _ hs
        exact Or.inl (hsame ▸ hlt)
    rcases hold with hold | ⟨rfl, rfl⟩
    · refine (hp.covered s p hold).imp id ?_
      rintro ⟨u, hu, hpl⟩
      have hut := hne s u hu
      exact ⟨u, by rw [hadv.pc u hut]; exact hu, by rw [hadv.place u hut]; exact hpl⟩
    · exact Or.inr ⟨t, (afterAcquire_inFlight _).mpr rfl, hplace⟩
  · exact lt_of_lt_of_le (hp.commits_lt s p hm) (hext.acquired_le s)
  · by_cases hut : u = t
    · subst hut
      rw [afterAcquire_inFlight] at hu
      subst hu
      rw [hplace]
      exact fun hm => absurd (hp.commits_lt _ _ hm) (Nat.lt_irrefl _)
    · rw [hadv.pc u hut] at hu
      rw [hadv.place u hut]
      exact hp.held s u hu
  · by_cases hut : u = t
    · subst hut
      rw [hself] at hu
      simp only [Pc.flightOp, Option.some.injEq] at hu
      subst hu
      rw [hplace]
      simp [World.afterAcquire, Hist.record, Hist.acquired]
    · rw [hadv.pc u hut] at hu
      rw [hadv.place u hut]
      exact hext.acquirer (hp.acquirer u o hu)
  · obtain ⟨m, hm', hst⟩ := hp.stored p hlo hm
    exact ⟨m, hext.sent hm', hst.1, by rw [hring]; exact hst.2⟩
  · obtain ⟨⟨m, hout, hm'⟩, hc, u, hu⟩ := hp.delivered p out hm
    exact ⟨⟨m, hout, hext.sent hm'⟩, hc, u, hext.acquirer hu⟩
  · by_cases hut : u = t
    · subst hut
      simp only [PayloadHolds, hself]
      cases op with
      | eventTx m => exact ⟨m, rfl, by simp⟩
      | eventRx => rfl
      | rpcEnqueue id => exact hev.elim
      | rpcDequeue => exact hev.elim
    · exact (hp.payload u).keep hext (hadv.pc u hut) (hadv.place u hut)
        fun _ => ⟨rfl, by rw [hring]⟩

/-- **Commits keep the payload invariant.**  A producer's commit hands its slot to the stored
messages; a consumer's commit delivers its copy. -/
theorem PayloadInv.afterCommit {op : Op} {out : Out} {oh tl : Marker} (hp : PayloadInv w)
    (hi : Inv w) (hpc : w.sys.pc t = .committing op out (.cas oh tl)) :
    PayloadInv (w.afterCommit t op out oh tl) := by
  have hown := hp.payload t
  simp only [PayloadHolds, hpc] at hown
  have hfly : (w.sys.pc t).InFlight op.side := by simp [hpc, Pc.InFlight]
  have hacq := hp.acquirer t op (by simp [hpc, Pc.flightOp])
  have hext : Extends w.hist (w.afterCommit t op out oh tl).hist :=
    extends_record w.hist t (.committed op (decide (LastCommitter oh tl)) out)
  have hadv : Advance w (w.afterCommit t op out oh tl) t := afterCommit_advance hi
  have hsent : ∀ p, (w.afterCommit t op out oh tl).hist.sent p = w.hist.sent p := fun _ => rfl
  have hring : (w.afterCommit t op out oh tl).sys.queue.ring = w.sys.queue.ring :=
    Queue.setBound_ring ..
  have hself : (w.afterCommit t op out oh tl).sys.pc t = .returned op 0 out :=
    Function.update_self ..
  have hcommits : (w.afterCommit t op out oh tl).hist.commits
      = Function.update w.hist.commits op.side (w.hist.commits op.side ++ [w.hist.place t]) := rfl
  have hmem : ∀ s p, p ∈ (w.afterCommit t op out oh tl).hist.commits s ↔
      p ∈ w.hist.commits s ∨ (op.side = s ∧ p = w.hist.place t) := by
    intro s p
    rw [hcommits]
    by_cases hs : s = op.side
    · subst hs
      simp
    · simp [Function.update_of_ne hs, Ne.symm hs]
  refine
    { covered := fun s p hlt => ?_, commits_lt := fun s p hm => ?_, commits_nodup := fun s => ?_,
      held := fun s u hu => ?_, acquirer := fun u o hu => ?_, stored := fun p hlo hm => ?_,
      received := ?_, delivered := fun p o hm => ?_, payload := fun u => ?_ }
  · rw [hmem]
    rcases hp.covered s p hlt with hc | ⟨u, hu, rfl⟩
    · exact Or.inl (Or.inl hc)
    · by_cases hut : u = t
      · subst hut
        refine Or.inl (Or.inr ⟨?_, rfl⟩)
        simpa [hpc, Pc.InFlight] using hu
      · exact Or.inr ⟨u, by rw [hadv.pc u hut]; exact hu, rfl⟩
  · rcases (hmem s p).mp hm with hc | ⟨rfl, rfl⟩
    · exact hp.commits_lt s p hc
    · exact (hi.place_range op.side t hfly).2
  · rw [hcommits]
    by_cases hs : s = op.side
    · subst hs
      rw [Function.update_self]
      exact List.nodup_append.mpr ⟨hp.commits_nodup _, List.nodup_singleton _, by
        intro a ha b hb
        rw [List.mem_singleton.mp hb]
        exact fun he => hp.held _ t hfly (he ▸ ha)⟩
    · rw [Function.update_of_ne hs]
      exact hp.commits_nodup s
  · obtain ⟨hut, hbefore⟩ := afterCommit_inFlight s u hu
    rw [hmem, not_or]
    refine ⟨hp.held s u hbefore, ?_⟩
    rintro ⟨rfl, he⟩
    exact hut (hi.place_inj op.side u t hbefore hfly he)
  · by_cases hut : u = t
    · subst hut
      rw [hself] at hu
      cases hu
    · rw [hadv.pc u hut] at hu
      exact hp.acquirer u o hu
  · have hlo' : w.hist.published .cons ≤ p := le_trans (afterCommit_published hi .cons) hlo
    rw [hsent]
    rcases (hmem .prod p).mp hm with hc | ⟨hside, rfl⟩
    · obtain ⟨m, hm', hst⟩ := hp.stored p hlo' hc
      exact ⟨m, hm', hst.1, by rw [hring]; exact hst.2⟩
    · rcases hown with ⟨m, rfl, hst⟩ | ⟨rfl, _⟩
      · exact ⟨m, Hist.sent_of_acquirer hacq, hst.1, by rw [hring]; exact hst.2⟩
      · cases hside
  · rcases hown with ⟨m, rfl, _⟩ | ⟨rfl, _⟩
    · simpa [World.afterCommit, Hist.record, Op.side] using hp.received
    · simpa [World.afterCommit, Hist.record, Op.side] using hp.received
  · rw [hsent, hmem]
    have hcase : (p, o) ∈ w.hist.received ∨ (op = .eventRx ∧ p = w.hist.place t ∧ o = out) := by
      rcases hown with ⟨m, rfl, _⟩ | ⟨rfl, _⟩
      · exact Or.inl (by simpa [World.afterCommit, Hist.record, Op.side] using hm)
      · simpa [World.afterCommit, Hist.record, Op.side] using hm
    rcases hcase with hold | ⟨rfl, rfl, rfl⟩
    · obtain ⟨hm', hc, hu⟩ := hp.delivered p o hold
      exact ⟨hm', Or.inl hc, hu⟩
    · rcases hown with ⟨m, hop, _⟩ | ⟨_, m, rfl, hm'⟩
      · cases hop
      · exact ⟨⟨m, rfl, hm'⟩, Or.inl (hp.stored_of_consumer hi hfly).1, t, hacq⟩
  · by_cases hut : u = t
    · subst hut
      simp only [PayloadHolds, hself]
      rintro rfl _
      exact ⟨by simp [World.afterCommit, Hist.record, Op.side], hacq⟩
    · exact (hp.payload u).keep hext (hadv.pc u hut) (hadv.place u hut)
        fun _ => ⟨rfl, by rw [hring]⟩

/-! ### Every step -/

/-- Copying a word of `src` makes it the same as in `src`, beside those that are already. -/
theorem copied_insert {data src : RpcMsg} {done : Finset (Fin 4)} {i : Fin 4}
    (h : ∀ j ∈ done, data j = src j) :
    ∀ j ∈ insert i done, Function.update data i (src i) j = src j := by
  intro j hj
  by_cases hji : j = i
  · rw [hji, Function.update_self]
  · rw [Function.update_of_ne hji]
    exact h j ((Finset.mem_insert.mp hj).resolve_left hji)

/-- What an access of an element function does to the message it moves. -/
theorem payloadHolds_body {op : Op} {entry : BitVec 32} {b : Body} {word : Option (Fin 4)}
    {q' : Queue} {buf' : RpcMsgBuffer} {r : BodyResult} (hp : PayloadInv w) (hi : Inv w)
    (hpc : w.sys.pc t = .body op entry b)
    (h : bodyStep op (ringIndex entry) w.sys.queue w.sys.buffer b word = some (q', buf', r)) :
    PayloadHolds
        ⟨⟨q', buf', Function.update w.sys.pc t (r.pc op entry)⟩, w.hist.record t .silent⟩ t ∧
      OtherSlotsKept w
        ⟨⟨q', buf', Function.update w.sys.pc t (r.pc op entry)⟩, w.hist.record t .silent⟩ t := by
  have hown := hp.payload t
  have hentry := hi.copies t
  simp only [PayloadHolds, hpc] at hown
  simp only [CopiesHold, hpc] at hentry
  have hidx : ringIndex entry = slotOf (w.hist.place t) := by rw [hentry, ringIndex_ofNat]
  rw [hidx] at h
  have hfly : (w.sys.pc t).InFlight op.side := by simp [hpc, Pc.InFlight]
  -- a slot `t` writes as a producer is no other live position's slot
  have hother : op.side = .prod → ∀ p, w.hist.published .cons ≤ p → p < w.hist.acquired .prod →
      ((w.sys.pc t).InFlight .prod → p ≠ w.hist.place t) →
      slotOf p ≠ slotOf (w.hist.place t) := by
    intro hside p hlo hhi hne he
    rw [hside] at hfly
    obtain ⟨hplo, hphi⟩ := hi.place_range .prod t hfly
    obtain ⟨h1, h2, _, _⟩ := hi.positions
    exact hne hfly (hi.slot_inj hlo hhi (by omega) hphi he)
  simp only [PayloadHolds, Function.update_self]
  cases b with
  | copyTo done =>
      obtain ⟨m, rfl, hm⟩ := hown
      cases word with
      | none => simp [bodyStep] at h
      | some i =>
          simp only [bodyStep] at h
          split at h
          · cases h
          · simp only [Option.some.injEq, Prod.mk.injEq] at h
            obtain ⟨rfl, rfl, rfl⟩ := h
            have hwritten := copied_insert (i := i) hm
            refine ⟨?_, fun p hlo hhi hne =>
              ⟨Function.update_of_ne (hother rfl p hlo hhi hne) _ _, rfl⟩⟩
            by_cases huniv : insert i done = Finset.univ
            · rw [if_pos huniv]
              refine ⟨rfl, ?_⟩
              congr 1
              funext j
              show m j = Function.update w.sys.buffer _ _ (slotOf (w.hist.place t)) j
              rw [Function.update_self, hwritten j (huniv ▸ Finset.mem_univ j)]
            · rw [if_neg huniv]
              refine ⟨m, rfl, fun j hj => ?_⟩
              show Function.update w.sys.buffer _ _ (slotOf (w.hist.place t)) j = m j
              rw [Function.update_self, hwritten j hj]
  | ringWrite id =>
      obtain ⟨rfl, hop⟩ := hown
      cases word with
      | some i => simp [bodyStep] at h
      | none =>
          simp only [bodyStep, Option.some.injEq, Prod.mk.injEq] at h
          obtain ⟨rfl, rfl, rfl⟩ := h
          refine ⟨Or.inl ⟨_, hop, rfl, Function.update_self ..⟩, fun p hlo hhi hne =>
            ⟨rfl, Function.update_of_ne (hother (by rw [hop]; rfl) p hlo hhi hne) _ _⟩⟩
  | ringRead =>
      subst hown
      obtain ⟨_, m, hm, hst⟩ := hp.stored_of_consumer hi hfly
      cases word with
      | some i => simp [bodyStep] at h
      | none =>
          simp only [bodyStep, hst.2, rpcmsgIdToMsg_msgToId, Option.some.injEq,
            Prod.mk.injEq] at h
          obtain ⟨rfl, rfl, rfl⟩ := h
          exact ⟨⟨rfl, rfl, m, hm, by simp⟩, fun _ _ _ _ => ⟨rfl, rfl⟩⟩
  | copyFrom id done data =>
      obtain ⟨rfl, rfl, m, hm, hdata⟩ := hown
      obtain ⟨_, m', hm', hst⟩ := hp.stored_of_consumer hi hfly
      have hmm : m' = m := Option.some.inj (hm'.symm.trans hm)
      subst hmm
      cases word with
      | none => simp [bodyStep] at h
      | some i =>
          simp only [bodyStep] at h
          split at h
          · cases h
          · simp only [Option.some.injEq, Prod.mk.injEq] at h
            obtain ⟨rfl, rfl, rfl⟩ := h
            have hread : ∀ j ∈ insert i done,
                Function.update data i (w.sys.buffer (slotOf (w.hist.place t)) i) j = m' j := by
              rw [hst.1]
              exact copied_insert hdata
            refine ⟨?_, fun _ _ _ _ => ⟨rfl, rfl⟩⟩
            by_cases huniv : insert i done = Finset.univ
            · rw [if_pos huniv]
              refine Or.inr ⟨rfl, m', ?_, hm⟩
              congr 1
              funext j
              exact hread j (huniv ▸ Finset.mem_univ j)
            · rw [if_neg huniv]
              exact ⟨rfl, rfl, m', hm, hread⟩

/-- **The payload step lemma.** -/
theorem PayloadInv.step {variant : τ → CasVariant} {l : τ × Act} (hp : PayloadInv w) (hi : Inv w)
    (h : (eventLts variant).step w l w') : PayloadInv w' := by
  obtain ⟨t, act⟩ := l
  obtain ⟨hev, hfresh, s', e, hstep, rfl⟩ := h
  obtain ⟨q', buf', pc', rfl, hmove⟩ := sysStep_moves hstep
  have hown := hp.payload t
  have hkept : OtherSlotsKept w ⟨⟨w.sys.queue, w.sys.buffer, Function.update w.sys.pc t pc'⟩,
      w.hist.record t e⟩ t := fun _ _ _ _ => ⟨rfl, rfl⟩
  generalize hpc : w.sys.pc t = pc at hmove
  simp only [PayloadHolds, hpc] at hown
  cases hmove with
  | call op =>
      refine hp.quiet hi (quiet_of_event trivial (fun _ => rfl) rfl (fun s => ?_) id) rfl
        (fun o ho => ?_) hkept ?_
      · simp [hpc, Pc.InFlight]
      · cases ho
      · simp only [PayloadHolds, Function.update_self]
        exact hev
  | acquire op ot heq => exact hp.afterAcquire hpc
  | commit op out oh tl heq => exact hp.afterCommit hi hpc
  | @body op entry b word _ _ r hbody =>
      obtain ⟨hbound, hring⟩ := bodyStep_frame hbody
      obtain ⟨hring', hnoabort⟩ := hring hi.ring
      obtain ⟨hpay, hslots⟩ := payloadHolds_body hp hi hpc hbody
      refine hp.quiet hi (quiet_of_event trivial hbound rfl (fun s => ?_) fun _ => hring') rfl
        (fun o ho => ?_) hslots hpay
      · rw [BodyResult.pc_inFlight hnoabort, hpc]
        rfl
      · rw [hpc]
        cases r with
        | more b' => exact ho
        | finished out => exact ho
        | abort => exact absurd rfl hnoabort
  | acquireLost op ot hne =>
      refine hp.quiet hi (quiet_of_event (casEvent_isQuiet trivial) (fun _ => rfl) rfl
        (fun s => ?_) id) ?_ (fun o ho => ?_) hkept ?_
      · simp [hpc, Pc.InFlight]
      · cases variant t <;> rfl
      · cases ho
      · simpa only [PayloadHolds, Function.update_self] using hown
  | commitLost op out oh tl hne =>
      refine hp.quiet hi (quiet_of_event (casEvent_isQuiet trivial) (fun _ => rfl) rfl
        (fun s => ?_) id) ?_ (fun o ho => ?_) hkept ?_
      · simp [hpc, Pc.InFlight]
      · cases variant t <;> rfl
      · rw [hpc]
        exact ho
      · simp only [PayloadHolds, Function.update_self]
        cases variant t <;> exact hown
  | loadHead op out =>
      refine hp.quiet hi (quiet_of_event trivial (fun _ => rfl) rfl (fun s => ?_) id) rfl
        (fun o ho => ?_) hkept ?_
      · simp [hpc, Pc.InFlight]
      · rw [hpc]
        exact ho
      · simp only [PayloadHolds, Function.update_self]
        exact hown
  | sampleTail op out oh =>
      refine hp.quiet hi (quiet_of_event trivial (fun _ => rfl) rfl (fun s => ?_) id) rfl
        (fun o ho => ?_) hkept ?_
      · simp [hpc, Pc.InFlight]
      · rw [hpc]
        exact ho
      · simp only [PayloadHolds, Function.update_self]
        exact hown
  | full op ot hzero =>
      refine hp.quiet hi (quiet_of_event trivial (fun _ => rfl) rfl (fun s => ?_) id) rfl
        (fun o ho => ?_) hkept ?_
      · simp [hpc, Pc.InFlight]
      · cases ho
      · simp [PayloadHolds]
  | leave op ret out =>
      refine hp.quiet hi (quiet_of_event trivial (fun _ => rfl) rfl (fun s => ?_) id) rfl
        (fun o ho => ?_) hkept ?_
      · simp [hpc, Pc.InFlight]
      · cases ho
      · simp [PayloadHolds]
  | _ =>
      refine hp.quiet hi (quiet_of_event trivial (fun _ => rfl) rfl (fun s => ?_) id) rfl
        (fun o ho => ?_) hkept ?_
      · simp [hpc, Pc.InFlight]
      · cases ho
      · simpa only [PayloadHolds, Function.update_self] using hown

/-! ### Delivery -/

theorem payloadInv_of_reachable {variant : τ → CasVariant} (h : (eventLts variant).Reachable w) :
    PayloadInv w := by
  refine h.invariant (I := PayloadInv) (fun w hw => ?_) fun u l v hr hp hs => ?_
  · cases hw
    exact payloadInv_initial
  · exact hp.step (inv_of_reachable hr.of_restrict) hs

/-- What an event queue promises in a state with its history. -/
structure EventDelivery (w : World τ) : Prop where
  /-- what is received at `p` is the committed message of the producer that acquired `p`, and the
  receiver is the consumer that acquired `p` -/
  whole : ∀ p out, (p, out) ∈ w.hist.received →
    (∃ t m, (w.hist.acquirers .prod)[p]? = some (t, .eventTx m) ∧ out = .copy m) ∧
      p ∈ w.hist.commits .prod ∧ ∃ t, (w.hist.acquirers .cons)[p]? = some (t, .eventRx)
  /-- no position is received twice -/
  once : (w.hist.received.map Prod.fst).Nodup
  /-- a call of `rpcmsg_event_rx` that returns 0 has received at the position it acquired -/
  returned : ∀ t out, w.sys.pc t = .returned .eventRx 0 out →
    (w.hist.place t, out) ∈ w.hist.received ∧
      (w.hist.acquirers .cons)[w.hist.place t]? = some (t, .eventRx)
  /-- a committed message that is not consumed yet is in its slot -/
  kept : ∀ p, p ∈ w.hist.commits .prod → p ∉ w.hist.commits .cons →
    ∃ t m, (w.hist.acquirers .prod)[p]? = some (t, .eventTx m) ∧ Stored w.sys p m
  /-- no assertion on a message id fails -/
  noAbort : ∀ t, w.sys.pc t ≠ .aborted

/-- **Every event is delivered once and whole.**  Whatever the number of threads, the build of each
and the order of their steps, in every reachable state of an event queue the messages received are
messages sent, each by the consumer of its position and no message twice; what is committed stays in
its slot until it is consumed. -/
theorem event_delivery {variant : τ → CasVariant} (h : (eventLts variant).Reachable w) :
    EventDelivery w := by
  have hi := inv_of_reachable h.of_restrict
  have hp := payloadInv_of_reachable h
  refine
    { whole := fun p out hm => ?_, once := ?_, returned := fun t out hpc => ?_,
      kept := fun p hc hnot => ?_, noAbort := fun t hpc => ?_ }
  · obtain ⟨⟨m, rfl, hsent⟩, hc, hcons⟩ := hp.delivered p out hm
    obtain ⟨t, ht⟩ := Hist.exists_acquirer_of_sent hsent
    exact ⟨⟨t, m, ht, rfl⟩, hc, hcons⟩
  · rw [hp.received]
    exact hp.commits_nodup .cons
  · have hown := hp.payload t
    simp only [PayloadHolds, hpc] at hown
    simpa using hown
  · have hlo : w.hist.published .cons ≤ p :=
      Nat.le_of_not_lt fun hlt => hnot (hp.committed_of_lt hi hlt)
    obtain ⟨m, hsent, hst⟩ := hp.stored p hlo hc
    obtain ⟨t, ht⟩ := Hist.exists_acquirer_of_sent hsent
    exact ⟨t, m, ht, hst⟩
  · have hown := hp.payload t
    simp only [PayloadHolds, hpc] at hown

end Step

/-- The steps of an operation that meets no other thread: `before` and `after` steps around the
copy of the message words in the given order. -/
def soloSteps (t : Bool) (before : ℕ) (words : List (Fin 4)) (after : ℕ) : List (Bool × Act) :=
  (List.replicate before none ++ words.map some ++ List.replicate after none).map
    fun word => (t, .step word)

/-- One thread sends an event; then the other receives it, copying its words from last to first. -/
def oneEventScript : List (Bool × Act) :=
  (false, .call (.eventTx fun i => BitVec.ofNat 64 (i.val + 7))) ::
    soloSteps false 4 (List.finRange 4) 4 ++
    (true, .call .eventRx) :: soloSteps true 5 (List.finRange 4).reverse 3

/-- The sender is a user-space build and the receiver a kernel build. -/
def oneEvent : World Bool :=
  World.initial.play (fun t => if t then .kernel else .user) oneEventScript

/-- `event_delivery` after one event went through the queue. -/
theorem event_delivery_oneEvent :
    ∃ t m, (oneEvent.hist.acquirers .prod)[0]? = some (t, .eventTx m) ∧
      oneEvent.hist.received = [(0, .copy m)] := by
  have hreach : (eventLts _).Reachable oneEvent := eventLts_reachable_play (.init rfl) (by decide)
  have h := event_delivery hreach
  have hlen : oneEvent.hist.received.map Prod.fst = [0] := by decide
  obtain ⟨⟨p, out⟩, hr, hpos⟩ := List.map_eq_singleton_iff.mp hlen
  have hp : p = 0 := hpos
  subst hp
  obtain ⟨⟨t, m, ht, hout⟩, _⟩ := h.whole 0 out (by rw [hr]; exact List.mem_singleton_self _)
  exact ⟨t, m, ht, by rw [hr, hout]⟩

end TiiSel4Vm.RpcQueue
