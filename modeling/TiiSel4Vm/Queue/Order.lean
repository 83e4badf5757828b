import TiiSel4Vm.Queue.Markers

/-!
# Every reachable queue: marker order, no lost commit, honest failures

* `Inv.step` — one step of any thread keeps the queue invariant;
* `inv_of_reachable` — so it holds after every run;
* `markers_in_order` — the markers follow each other around the ring, a bound's tail-head distance
  stays within `RPCMSG_HTD_MAX + 1`, the counts tell how many threads are in flight, and the last
  committer publishes everything;
* `failure_is_honest` — an operation fails only when the queue was full (empty) at a moment inside
  the call, and leaves no trace in shared memory.
-/

namespace TiiSel4Vm.RpcQueue

open TiiSel4Vm.Transition TiiSel4Vm.WrapCounter

variable {τ : Type} [DecidableEq τ]

/-! ### The element functions leave the markers alone -/

/-- What every access of an element function preserves. -/
theorem bodyStep_frame {op : Op} {idx : Fin rpcmsgBufferSize} {q q' : Queue}
    {buf buf' : RpcMsgBuffer} {b : Body} {word : Option (Fin 4)} {r : BodyResult}
    (h : bodyStep op idx q buf b word = some (q', buf', r)) :
    (∀ s, q'.bound s = q.bound s) ∧
      (RingHoldsIds q → RingHoldsIds q' ∧ r ≠ .abort) := by
  cases b with
  | copyTo done =>
      cases word <;> cases op <;> simp only [bodyStep, reduceCtorEq] at h
      split at h
      · cases h
      · simp only [Option.some.injEq, Prod.mk.injEq] at h
        obtain ⟨rfl, -, rfl⟩ := h
        exact ⟨fun _ => rfl, fun hr => ⟨hr, by simp⟩⟩
  | ringWrite id =>
      cases word <;> simp only [bodyStep, reduceCtorEq, Option.some.injEq, Prod.mk.injEq] at h
      obtain ⟨rfl, -, rfl⟩ := h
      refine ⟨fun s => by simp, fun hr => ⟨fun i => ?_, by simp⟩⟩
      by_cases hi : i = idx
      · exact ⟨id, by simp [hi]⟩
      · simpa [Function.update_of_ne hi] using hr i
  | ringRead =>
      cases word <;> simp only [bodyStep, reduceCtorEq] at h
      split at h
      · rename_i hnone
        simp only [Option.some.injEq, Prod.mk.injEq] at h
        obtain ⟨rfl, -, rfl⟩ := h
        refine ⟨fun _ => rfl, fun hr => ?_⟩
        obtain ⟨id, hid⟩ := hr idx
        rw [hid, rpcmsgIdToMsg_msgToId] at hnone
        cases hnone
      · cases op <;>
          simp only [Option.some.injEq, Prod.mk.injEq] at h <;>
          obtain ⟨rfl, -, rfl⟩ := h <;>
          exact ⟨fun _ => rfl, fun hr => ⟨hr, by simp⟩⟩
  | copyFrom id done data =>
      cases word <;> simp only [bodyStep, reduceCtorEq] at h
      split at h
      · cases h
      · simp only [Option.some.injEq, Prod.mk.injEq] at h
        obtain ⟨rfl, -, rfl⟩ := h
        refine ⟨fun _ => rfl, fun hr => ⟨hr, ?_⟩⟩
        split <;> simp

/-- A thread whose element function did not abort is still in flight. -/
theorem BodyResult.pc_inFlight {op : Op} {entry : BitVec 32} {r : BodyResult} (h : r ≠ .abort)
    (s : Side) : (r.pc op entry).InFlight s ↔ op.side = s := by
  cases r with
  | more b => rfl
  | finished out => rfl
  | abort => exact absurd rfl h

/-! ### One step keeps the invariant -/

/-- Events that record neither an acquisition nor a commit. -/
def Event.IsQuiet : Event → Prop
  | .acquired _ => False
  | .committed _ _ _ => False
  | _ => True

theorem casEvent_isQuiet {v : CasVariant} {e : Event} (h : e.IsQuiet) : (casEvent v e).IsQuiet := by
  cases v
  · exact h
  · exact trivial

/-- A step with a quiet event is a quiet step. -/
theorem quiet_of_event {w : World τ} {t : τ} {s' : Sys τ} {pc' : Pc} {e : Event} (he : e.IsQuiet)
    (hbound : ∀ s, s'.queue.bound s = w.sys.queue.bound s)
    (hpc : s'.pc = Function.update w.sys.pc t pc')
    (hfly : ∀ s, pc'.InFlight s ↔ (w.sys.pc t).InFlight s)
    (hring : RingHoldsIds w.sys.queue → RingHoldsIds s'.queue) :
    Quiet w ⟨s', w.hist.record t e⟩ t pc' := by
  cases e with
  | acquired op => exact he.elim
  | committed op publish out => exact he.elim
  | silent => exact ⟨hbound, hpc, rfl, rfl, rfl, rfl, fun _ _ => rfl, fun _ _ => rfl, hfly, hring⟩
  | failed op =>
      exact ⟨hbound, hpc, rfl, rfl, rfl, rfl, fun _ _ => rfl, fun _ _ => rfl, hfly, hring⟩
  | loadedTail s =>
      exact ⟨hbound, hpc, rfl, rfl, rfl, rfl, fun _ hu => Function.update_of_ne hu _ _,
        fun _ _ => rfl, hfly, hring⟩
  | loadedHead s =>
      exact ⟨hbound, hpc, rfl, rfl, rfl, rfl, fun _ hu => Function.update_of_ne hu _ _,
        fun _ _ => rfl, hfly, hring⟩
  | sampledTail s =>
      exact ⟨hbound, hpc, rfl, rfl, rfl, rfl, fun _ _ => rfl,
        fun _ hu => Function.update_of_ne hu _ _, hfly, hring⟩

section OwnCopies

variable [Fintype τ] {w : World τ} {t : τ} {op : Op}

omit [DecidableEq τ] in
/-- The wait loop lets a current copy pass only within `RPCMSG_HTD_MAX` of the head. -/
theorem near_of_not_tooFar (hi : Inv w) {ot : Marker} (hcopy : TailCopy w.hist t op.side ot)
    (hnear : ¬ TooFar (w.sys.queue.bound op.side) ot)
    (hcur : w.hist.stamp t = w.hist.acquired op.side) :
    w.hist.acquired op.side ≤ w.hist.published op.side + rpcmsgHtdMax := by
  have hle : w.hist.published op.side ≤ w.hist.acquired op.side :=
    le_trans (hi.published_le _) (hi.committed_le _)
  have hclose : w.hist.acquired op.side - w.hist.published op.side < 2 ^ 32 := by
    have := hi.acquired_le op.side
    simp only [rpcmsgHtdMax, rpcmsgBufferSize] at this
    omega
  have hdist : (ot.pos - (w.sys.queue.bound op.side).head.pos).toNat ≤ rpcmsgHtdMax :=
    Nat.le_of_not_lt hnear
  rw [hcopy.1, hcur, hi.head_eq] at hdist
  exact (wrap_sub_le_iff hle hclose).mp hdist

omit [DecidableEq τ] in
/-- The space test lets a current copy pass only when there is an entry to acquire. -/
theorem room_of_entries (hi : Inv w) {ot : Marker} (hcopy : TailCopy w.hist t op.side ot)
    (hentries : entries op.side w.sys.queue ot ≠ 0#32)
    (hcur : w.hist.stamp t = w.hist.acquired op.side) : Room w.hist op.side := by
  have hot : ot.pos = BitVec.ofNat 32 (w.hist.acquired op.side) := by
    rw [hcopy.1, hcur]
    rfl
  cases hs : op.side with
  | prod =>
      refine lt_of_le_of_ne hi.prod_le_cons fun heq => hentries ?_
      rw [hs] at hot ⊢
      rw [entries, hi.cons_head_pos, hot, heq, BitVec.ofNat_add, BitVec.add_comm, BitVec.sub_self]
  | cons =>
      refine lt_of_le_of_ne hi.cons_le_prod fun heq => hentries ?_
      rw [hs] at hot ⊢
      rw [entries, hi.prod_head_pos, hot, heq, BitVec.sub_self]

omit [DecidableEq τ] in
/-- A freshly loaded tail is a sound copy. -/
theorem tailCopy_loaded (hi : Inv w) {h' : Hist τ} (hstamp : h'.stamp t = w.hist.acquired op.side)
    (hacq : h'.acquired op.side = w.hist.acquired op.side) :
    TailCopy h' t op.side (w.sys.queue.bound op.side).tail :=
  ⟨by rw [hi.tail_eq, hstamp], by rw [hstamp, hacq]⟩

omit [DecidableEq τ] in
/-- A freshly loaded head is a sound copy. -/
theorem headCopy_loaded (hi : Inv w) {w' : World τ}
    (hstamp : w'.hist.stamp t = w.hist.committed op.side)
    (hcom : w'.hist.committed op.side = w.hist.committed op.side)
    (hq : w'.sys.queue = w.sys.queue) :
    HeadCopy w' t op.side (w.sys.queue.bound op.side).head :=
  ⟨by rw [hi.head_eq, hstamp], by rw [hstamp, hcom], fun _ => by rw [hq]⟩

end OwnCopies

/-- A step with a quiet event keeps the invariant, when the moved thread's own copies are sound. -/
theorem Inv.quietStep [Fintype τ] {w : World τ} {t : τ} {s' : Sys τ} {pc' : Pc} {e : Event}
    (hi : Inv w) (he : e.IsQuiet) (hbound : ∀ s, s'.queue.bound s = w.sys.queue.bound s)
    (hpc : s'.pc = Function.update w.sys.pc t pc')
    (hfly : ∀ s, pc'.InFlight s ↔ (w.sys.pc t).InFlight s)
    (hring : RingHoldsIds w.sys.queue → RingHoldsIds s'.queue)
    (hown : CopiesHold ⟨s', w.hist.record t e⟩ t) : Inv ⟨s', w.hist.record t e⟩ :=
  (quiet_of_event he hbound hpc hfly hring).inv hi hown

/-- **The step lemma.** -/
theorem Inv.step [Fintype τ] {variant : τ → CasVariant} {w w' : World τ} {l : τ × Act} (hi : Inv w)
    (h : (worldLts variant).step w l w') : Inv w' := by
  obtain ⟨t, act⟩ := l
  obtain ⟨hfresh, s', e, hstep, rfl⟩ := h
  obtain ⟨q', buf', pc', rfl, hmove⟩ := sysStep_moves hstep
  have hown := hi.copies t
  generalize hpc : w.sys.pc t = pc at hmove
  simp only [CopiesHold, hpc] at hown
  simp only [Fresh, hpc] at hfresh
  cases hmove with
  | call op =>
      refine hi.quietStep trivial (fun _ => rfl) rfl (fun s => ?_) id ?_
      · simp [hpc, Pc.InFlight]
      · simp [CopiesHold]
  | load op =>
      refine hi.quietStep trivial (fun _ => rfl) rfl (fun s => ?_) id ?_
      · simp [hpc, Pc.InFlight]
      · simp only [CopiesHold, Function.update_self]
        exact tailCopy_loaded hi (Function.update_self ..) rfl
  | reload op =>
      refine hi.quietStep trivial (fun _ => rfl) rfl (fun s => ?_) id ?_
      · simp [hpc, Pc.InFlight]
      · simp only [CopiesHold, Function.update_self]
        exact tailCopy_loaded hi (Function.update_self ..) rfl
  | far op ot hfar =>
      refine hi.quietStep trivial (fun _ => rfl) rfl (fun s => ?_) id ?_
      · simp [hpc, Pc.InFlight]
      · simp [CopiesHold]
  | near op ot hnear =>
      refine hi.quietStep trivial (fun _ => rfl) rfl (fun s => ?_) id ?_
      · simp [hpc, Pc.InFlight]
      · simp only [CopiesHold, Function.update_self]
        exact ⟨hown, near_of_not_tooFar hi hown hnear⟩
  | full op ot hzero =>
      refine hi.quietStep trivial (fun _ => rfl) rfl (fun s => ?_) id ?_
      · simp [hpc, Pc.InFlight]
      · simp [CopiesHold]
  | room op ot hentries =>
      refine hi.quietStep trivial (fun _ => rfl) rfl (fun s => ?_) id ?_
      · simp [hpc, Pc.InFlight]
      · simp only [CopiesHold, Function.update_self]
        exact ⟨hown.1, fun hcur => ⟨hown.2 hcur, room_of_entries hi hown.1 hentries hcur⟩⟩
  | acquire op ot heq => exact hi.afterAcquire hpc hfresh heq
  | acquireLost op ot hne =>
      refine hi.quietStep (casEvent_isQuiet trivial) (fun _ => rfl) rfl (fun s => ?_) id ?_
      · simp [hpc, Pc.InFlight]
      · simp only [CopiesHold, Function.update_self]
        cases variant t with
        | user => exact tailCopy_loaded hi (Function.update_self ..) rfl
        | kernel => exact hown.1
  | @body op entry b word _ _ r hbody =>
      obtain ⟨hbound, hring⟩ := bodyStep_frame hbody
      obtain ⟨hring', hnoabort⟩ := hring hi.ring
      refine hi.quietStep trivial hbound rfl (fun s => ?_) (fun _ => hring') ?_
      · rw [BodyResult.pc_inFlight hnoabort, hpc]
        rfl
      · cases r with
        | more b' =>
            simp only [CopiesHold, BodyResult.pc, Function.update_self]
            exact hown
        | finished out => simp [CopiesHold, BodyResult.pc]
        | abort => exact absurd rfl hnoabort
  | loadHead op out =>
      refine hi.quietStep trivial (fun _ => rfl) rfl (fun s => ?_) id ?_
      · simp [hpc, Pc.InFlight]
      · simp only [CopiesHold, Function.update_self]
        exact headCopy_loaded hi (Function.update_self ..) rfl rfl
  | sampleTail op out oh =>
      have hfly : (w.sys.pc t).InFlight op.side := by simp [hpc, Pc.InFlight]
      refine hi.quietStep trivial (fun _ => rfl) rfl (fun s => ?_) id ?_
      · simp [hpc, Pc.InFlight]
      · simp only [CopiesHold, Function.update_self]
        refine ⟨hown, ?_⟩
        have hsample :
            (w.hist.record t (.sampledTail op.side)).sample t = w.hist.acquired op.side :=
          Function.update_self ..
        have hstamp : w.hist.stamp t ≤ w.hist.committed op.side := hown.2.1
        have hlt := hi.committed_lt hfly
        refine ⟨by rw [hi.tail_eq, hsample], ?_, le_of_eq hsample, fun hcur hlast u hu hflyu => ?_⟩
        · rw [hsample]
          exact lt_of_le_of_lt hstamp hlt
        · -- the sampled tail is one ahead of the commits, so `t` is alone in flight
          rw [hsample] at hlast
          have hcur' : w.hist.stamp t = w.hist.committed op.side := hcur
          have hlast' : w.hist.acquired op.side = w.hist.stamp t + 1 := hlast
          have hone : countThreads (Pc.InFlight op.side) w.sys.pc = 1 := by
            have := hi.inFlight op.side
            omega
          simp only [Function.update_of_ne hu] at hflyu
          exact absurd (eq_of_countThreads_eq_one hone hfly hflyu) hu
  | commit op out oh tl heq => exact hi.afterCommit hpc hfresh heq
  | commitLost op out oh tl hne =>
      refine hi.quietStep (casEvent_isQuiet trivial) (fun _ => rfl) rfl (fun s => ?_) id ?_
      · simp [hpc, Pc.InFlight]
      · simp only [CopiesHold, Function.update_self]
        cases variant t with
        | user => exact headCopy_loaded hi (Function.update_self ..) rfl rfl
        | kernel => exact hown.1
  | leave op ret out =>
      refine hi.quietStep trivial (fun _ => rfl) rfl (fun s => ?_) id ?_
      · simp [hpc, Pc.InFlight]
      · simp [CopiesHold]

/-- **The run lemma.**  Every reachable queue satisfies the invariant. -/
theorem inv_of_reachable [Fintype τ] {variant : τ → CasVariant} {w : World τ}
    (h : (worldLts variant).Reachable w) : Inv w :=
  h.invariant (fun _ hw => hw ▸ inv_initial) fun _ _ _ _ hi hs => hi.step hs

/-! ### The order of the markers -/

/-- How far marker `m` is ahead of the consumers' head, modulo `2 ^ 32`. -/
def Queue.ahead (q : Queue) (m : Marker) : ℕ := (m.pos - q.cons.head.pos).toNat

section Order

variable [Fintype τ] {w : World τ}

omit [DecidableEq τ] in
/-- The four positions, unwrapped. -/
theorem Inv.positions (h : Inv w) :
    w.hist.published .cons ≤ w.hist.acquired .cons ∧
      w.hist.acquired .cons ≤ w.hist.published .prod ∧
      w.hist.published .prod ≤ w.hist.acquired .prod ∧
      w.hist.acquired .prod ≤ w.hist.published .cons + rpcmsgBufferSize :=
  ⟨le_trans (h.published_le _) (h.committed_le _), h.cons_le_prod,
    le_trans (h.published_le _) (h.committed_le _), h.prod_le_cons⟩

omit [DecidableEq τ] in
/-- A wrapped distance from the consumers' head is the unwrapped one. -/
theorem Inv.ahead_eq (h : Inv w) {m : Marker} {n : ℕ} (hm : m.pos = BitVec.ofNat 32 n)
    (hlo : w.hist.published .cons ≤ n) (hhi : n ≤ w.hist.acquired .prod) :
    w.sys.queue.ahead m = n - w.hist.published .cons := by
  obtain ⟨_, _, _, h4⟩ := h.positions
  rw [Queue.ahead, hm, h.cons_head_pos,
    wrap_sub_toNat hlo (by simp only [rpcmsgBufferSize] at h4; omega)]

omit [DecidableEq τ] in
/-- With nobody between acquire and commit, a bound's head is its tail. -/
theorem Inv.head_eq_tail (h : Inv w) {s : Side} (hidle : ∀ t, ¬ (w.sys.pc t).InFlight s) :
    (w.sys.queue.bound s).head = (w.sys.queue.bound s).tail ∧
      (w.sys.queue.bound s).tail = wrapped (w.hist.committed s) := by
  obtain ⟨hcommitted, hpublished⟩ := h.settled_of_idle hidle
  rw [h.head_eq, h.tail_eq, hpublished, hcommitted]
  exact ⟨rfl, rfl⟩

/-- **The markers are in order, and no commit is lost.**  In every reachable state the positions
follow each other around the ring within one buffer size; on each side the tail is at most
`RPCMSG_HTD_MAX + 1` ahead of the head, the counts differ by the number of threads in flight, and
when none is, the head is the tail and both stand for all the operations committed so far. -/
theorem markers_in_order {variant : τ → CasVariant} (h : (worldLts variant).Reachable w) :
    w.sys.queue.ahead w.sys.queue.cons.tail ≤ w.sys.queue.ahead w.sys.queue.prod.head ∧
    w.sys.queue.ahead w.sys.queue.prod.head ≤ w.sys.queue.ahead w.sys.queue.prod.tail ∧
    w.sys.queue.ahead w.sys.queue.prod.tail ≤ rpcmsgBufferSize ∧
    ∀ s, ((w.sys.queue.bound s).tail.pos - (w.sys.queue.bound s).head.pos).toNat
          ≤ rpcmsgHtdMax + 1 ∧
      ((w.sys.queue.bound s).tail.count - (w.sys.queue.bound s).head.count).toNat
          = countThreads (Pc.InFlight s) w.sys.pc ∧
      ((∀ t, ¬ (w.sys.pc t).InFlight s) →
        (w.sys.queue.bound s).head = (w.sys.queue.bound s).tail ∧
        (w.sys.queue.bound s).tail = wrapped (w.hist.committed s)) := by
  have hi := inv_of_reachable h
  obtain ⟨h1, h2, h3, h4⟩ := hi.positions
  rw [hi.ahead_eq hi.cons_tail_pos h1 (by omega), hi.ahead_eq hi.prod_head_pos (by omega) h3,
    hi.ahead_eq hi.prod_tail_pos (by omega) (le_refl _)]
  refine ⟨by omega, by omega, by omega, fun s => ⟨?_, ?_, hi.head_eq_tail⟩⟩
  · have hle : w.hist.published s ≤ w.hist.acquired s :=
      le_trans (hi.published_le s) (hi.committed_le s)
    have hhtd := hi.acquired_le s
    rw [hi.tail_eq, hi.head_eq]
    refine (wrap_sub_le_iff hle ?_).mpr hhtd
    simp only [rpcmsgHtdMax, rpcmsgBufferSize] at hhtd
    omega
  · have hcount := hi.inFlight s
    have hpub := hi.published_le s
    have hhtd := hi.acquired_le s
    rw [hi.tail_eq, hi.head_eq]
    refine (wrap_sub_toNat (hi.committed_le s) ?_).trans (by omega)
    simp only [rpcmsgHtdMax, rpcmsgBufferSize] at hhtd
    omega

end Order

/-- Two producers, one of each build, have acquired their entries; none has committed. -/
def twoProducers : World (Fin 2) :=
  World.initial.play (fun t => if t = 0 then .user else .kernel)
    [(0, .call (.eventTx fun _ => 7#64)), (1, .call (.eventTx fun _ => 9#64)), (0, .step none),
      (1, .step none), (0, .step none), (0, .step none), (0, .step none), (1, .step none),
      (1, .step none), (1, .step none), (1, .step none), (1, .step none), (1, .step none)]

/-- `markers_in_order` at a state with entries in flight. -/
theorem markers_in_order_twoProducers :
    twoProducers.sys.queue.ahead twoProducers.sys.queue.prod.tail ≤ rpcmsgBufferSize ∧
      (twoProducers.sys.queue.prod.tail.count - twoProducers.sys.queue.prod.head.count).toNat
        = countThreads (Pc.InFlight .prod) twoProducers.sys.pc := by
  have h := markers_in_order
    (World.reachable_play (.init rfl) _ : (worldLts _).Reachable twoProducers)
  exact ⟨h.2.2.1, (h.2.2.2 .prod).2.1⟩

/-! ### Honest failures -/

/-- No entry can be acquired on side `s`: all slots taken, or every committed message claimed. -/
def Queue.Exhausted (q : Queue) : Side → Prop
  | .prod => q.prod.tail.pos - q.cons.head.pos = BitVec.ofNat 32 rpcmsgBufferSize
  | .cons => q.prod.head.pos = q.cons.tail.pos

omit [DecidableEq τ] in
/-- A fresh copy of the tail that shows no entries is current, and there are none. -/
theorem exhausted_of_entries [Fintype τ] {w : World τ} {t : τ} {op : Op} {ot : Marker} (hi : Inv w)
    (hcopy : TailCopy w.hist t op.side ot)
    (hfresh : w.hist.acquired op.side - w.hist.stamp t < freshBound)
    (hzero : entries op.side w.sys.queue ot = 0#32) : w.sys.queue.Exhausted op.side := by
  obtain ⟨h1, h2, h3, h4⟩ := hi.positions
  obtain ⟨hot, hle⟩ := hcopy
  have hpos : ot.pos = BitVec.ofNat 32 (w.hist.stamp t) := congrArg Marker.pos hot
  simp only [rpcmsgBufferSize] at h4
  cases hs : op.side with
  | prod =>
      rw [hs] at hle hfresh hzero
      rw [entries, hi.cons_head_pos, hpos, ← BitVec.ofNat_add, BitVec.sub_eq_iff_eq_add,
        BitVec.zero_add] at hzero
      have hfull : w.hist.stamp t = rpcmsgBufferSize + w.hist.published .cons :=
        wrap_inj (by simp only [rpcmsgBufferSize]; omega)
          (by simp only [rpcmsgBufferSize, freshBound] at hfresh ⊢; omega) hzero.symm
      have hall : w.hist.acquired .prod = rpcmsgBufferSize + w.hist.published .cons := by
        simp only [rpcmsgBufferSize] at hfull ⊢
        omega
      rw [Queue.Exhausted, hi.cons_head_pos, hi.prod_tail_pos, hall, BitVec.ofNat_add,
        BitVec.add_sub_cancel]
  | cons =>
      rw [hs] at hle hfresh hzero
      rw [entries, hi.prod_head_pos, hpos, BitVec.sub_eq_iff_eq_add, BitVec.zero_add] at hzero
      have hempty : w.hist.stamp t = w.hist.published .prod :=
        wrap_inj (by omega) (by simp only [freshBound] at hfresh; omega) hzero.symm
      rw [Queue.Exhausted, hi.prod_head_pos, hi.cons_tail_pos]
      congr 1
      omega

/-- Still trying to acquire, or failed. -/
def Pc.Trying (op : Op) (pc : Pc) : Prop :=
  (∃ a, pc = .acquiring op a) ∨ ∃ out, pc = .returned op (-1) out

/-- A call that failed was trying for its own operation. -/
theorem Pc.Trying.op_eq {op op' : Op} {out : Out} {pc : Pc} (h : pc.Trying op)
    (hret : pc = .returned op' (-1) out) : op' = op := by
  subst hret
  rcases h with ⟨a, ha⟩ | ⟨out', hout⟩
  · cases ha
  · cases hout
    rfl

/-- Past the acquisition: this call will not fail. -/
def Pc.Past : Pc → Prop
  | .body _ _ _ => True
  | .committing _ _ _ => True
  | .returned _ ret _ => ret = 0
  | .aborted => True
  | _ => False

section Call

variable {variant : τ → CasVariant} {t : τ} {op : Op} {u v : World τ} {l : τ × Act}

/-- Steps of other threads leave `t` where it is. -/
theorem pc_of_other (h : (worldLts variant).step u l v) (hl : l.1 ≠ t) :
    v.sys.pc t = u.sys.pc t := by
  obtain ⟨_, s', e, hstep, rfl⟩ := h
  obtain ⟨q', buf', pc', rfl, _⟩ := sysStep_moves hstep
  exact Function.update_of_ne (Ne.symm hl) _ _

/-- A call starts by trying, and changes nothing. -/
theorem call_step (h : (worldLts variant).step u (t, .call op) v) :
    v.sys.pc t = .acquiring op .load ∧ v.sys.queue = u.sys.queue ∧ v.sys.buffer = u.sys.buffer := by
  obtain ⟨_, s', e, hstep, rfl⟩ := h
  obtain ⟨q', buf', pc', rfl, hmove⟩ := sysStep_moves hstep
  generalize u.sys.pc t = pc at hmove
  cases hmove
  exact ⟨Function.update_self .., rfl, rfl⟩

/-- Until the thread leaves the call, a past acquisition stays past. -/
theorem past_step (h : (worldLts variant).step u l v) (hl : l ≠ (t, .leave))
    (hu : (u.sys.pc t).Past) : (v.sys.pc t).Past := by
  by_cases ht : l.1 = t
  · obtain ⟨a, act⟩ := l
    subst ht
    obtain ⟨_, s', e, hstep, rfl⟩ := h
    obtain ⟨q', buf', pc', rfl, hmove⟩ := sysStep_moves hstep
    simp only [Function.update_self]
    generalize u.sys.pc a = pc at hmove hu
    cases hmove with
    | body op entry b word hbody =>
        cases ‹BodyResult› <;> simp [BodyResult.pc, Pc.Past]
    | leave op ret out => exact absurd rfl hl
    | _ => simp_all [Pc.Past]
  · rw [pc_of_other h ht]
    exact hu

/-- A thread that is trying either keeps trying, without having changed anything, or has got past
the acquisition. -/
theorem trying_step (h : (worldLts variant).step u l v) (hl : l ≠ (t, .leave))
    (hu : (u.sys.pc t).Trying op) :
    (v.sys.pc t).Past ∨ (v.sys.pc t).Trying op ∧
      (l.1 = t → v.sys.queue = u.sys.queue ∧ v.sys.buffer = u.sys.buffer) := by
  by_cases ht : l.1 = t
  · obtain ⟨a, act⟩ := l
    subst ht
    obtain ⟨_, s', e, hstep, rfl⟩ := h
    obtain ⟨q', buf', pc', rfl, hmove⟩ := sysStep_moves hstep
    simp only [Function.update_self]
    rcases hu with ⟨b, hb⟩ | ⟨out, hout⟩
    · rw [hb] at hmove
      cases hmove with
      | acquire ot heq => exact Or.inl trivial
      | full ot hzero => exact Or.inr ⟨Or.inr ⟨_, rfl⟩, fun _ => ⟨rfl, rfl⟩⟩
      | _ => exact Or.inr ⟨Or.inl ⟨_, rfl⟩, fun _ => ⟨rfl, rfl⟩⟩
    · rw [hout] at hmove
      cases hmove
      exact absurd rfl hl
  · exact Or.inr ⟨by rw [pc_of_other h ht]; exact hu, fun h => absurd h ht⟩

theorem past_run {ls : List (τ × Act)} (h : (worldLts variant).Run u ls v)
    (hls : (t, Act.leave) ∉ ls) (hu : (u.sys.pc t).Past) : (v.sys.pc t).Past := by
  induction h with
  | nil => exact hu
  | snoc _ hs ih =>
      rw [List.mem_append, not_or] at hls
      exact past_step hs (fun he => hls.2 (by simp [he])) (ih hls.1)

/-- Within a call that fails in the end, the thread is trying all along. -/
theorem trying_run {ls : List (τ × Act)} (h : (worldLts variant).Run u ls v)
    (hls : (t, Act.leave) ∉ ls) (hu : (u.sys.pc t).Trying op) :
    (v.sys.pc t).Past ∨ (v.sys.pc t).Trying op := by
  induction h with
  | nil => exact Or.inr hu
  | snoc _ hs ih =>
      rw [List.mem_append, not_or] at hls
      have hl : _ ≠ (t, Act.leave) := fun he => hls.2 (List.mem_singleton.mpr he.symm)
      rcases ih hls.1 with hp | ht
      · exact Or.inl (past_step hs hl hp)
      · exact (trying_step hs hl ht).imp id And.left

/-- The step that makes an operation fail sees the queue exhausted. -/
theorem exhausted_of_failing [Fintype τ] (hr : (worldLts variant).Reachable u)
    (h : (worldLts variant).step u l v) (hu : ¬ ∃ op out, u.sys.pc t = .returned op (-1) out)
    {out : Out} (hv : v.sys.pc t = .returned op (-1) out) : u.sys.queue.Exhausted op.side := by
  by_cases ht : l.1 = t
  · obtain ⟨a, act⟩ := l
    subst ht
    have hi := inv_of_reachable hr
    obtain ⟨hfresh, s', e, hstep, rfl⟩ := h
    obtain ⟨q', buf', pc', rfl, hmove⟩ := sysStep_moves hstep
    have hown := hi.copies a
    simp only [Function.update_self] at hv hmove hu
    subst hv
    generalize hpc : u.sys.pc a = pc at hmove
    simp only [CopiesHold, hpc] at hown
    simp only [Fresh, hpc] at hfresh
    generalize hret : Pc.returned op (-1) out = pc' at hmove
    cases hmove with
    | full op' ot hzero =>
        cases hret
        exact exhausted_of_entries hi hown.1 (hfresh hzero) hzero
    | body op' entry b word hbody =>
        cases ‹BodyResult› <;> simp [BodyResult.pc] at hret
    | commit op' out' oh tl heq => simp at hret
    | _ => cases hret
  · exact absurd ⟨op, out, by rw [← pc_of_other h ht]; exact hv⟩ hu

/-- **Failures are honest and leave no trace.**  Take any run in which thread `t` calls `op` and the
call returns -1.  At some moment of that call the queue was exhausted for `op`: all 32 slots taken
(enqueue), or every committed message claimed (dequeue).  And no step of `t` in that call changed a
marker, a ring entry or a message. -/
theorem failure_is_honest [Fintype τ] {w₀ w₁ w₂ : World τ} {ls : List (τ × Act)} {op' : Op}
    {out : Out} (hr : (worldLts variant).Reachable w₀)
    (hcall : (worldLts variant).step w₀ (t, .call op) w₁) (hrun : (worldLts variant).Run w₁ ls w₂)
    (hsame : (t, Act.leave) ∉ ls) (hret : w₂.sys.pc t = .returned op' (-1) out) :
    op' = op ∧
    (∃ pre post w, ls = pre ++ post ∧ (worldLts variant).Run w₁ pre w ∧
      (worldLts variant).Run w post w₂ ∧ w.sys.queue.Exhausted op.side) ∧
    (w₁.sys.queue = w₀.sys.queue ∧ w₁.sys.buffer = w₀.sys.buffer) ∧
    ∀ pre l post u v, ls = pre ++ l :: post → (worldLts variant).Run w₁ pre u →
      (worldLts variant).step u l v → (worldLts variant).Run v post w₂ → l.1 = t →
      v.sys.queue = u.sys.queue ∧ v.sys.buffer = u.sys.buffer := by
  have hstart := call_step hcall
  have htry₁ : (w₁.sys.pc t).Trying op := Or.inl ⟨_, hstart.1⟩
  have hnotpast : ¬ (w₂.sys.pc t).Past := by simp [hret, Pc.Past]
  have htry₂ : (w₂.sys.pc t).Trying op :=
    (trying_run hrun hsame htry₁).resolve_left hnotpast
  obtain rfl : op' = op := htry₂.op_eq hret
  have hr₁ : (worldLts variant).Reachable w₁ := hr.step hcall
  refine ⟨rfl, ?_, hstart.2, fun pre l post u v hls hpre hstep hpost hl => ?_⟩
  · obtain ⟨pre, l, post, u, v, rfl, hpre, hstep, hpost, hu, hv⟩ :=
      hrun.establishes (P := fun w => ∃ o out, w.sys.pc t = .returned o (-1) out)
        (by rintro ⟨o, out', ho⟩; rw [hstart.1] at ho; cases ho) ⟨op', out, hret⟩
    obtain ⟨o, out', ho⟩ := hv
    have hmid : (t, Act.leave) ∉ pre ++ [l] := fun hm => hsame (by
      rcases List.mem_append.mp hm with hm | hm
      · exact List.mem_append_left _ hm
      · exact List.mem_append_right _ (by simp [List.mem_singleton.mp hm]))
    have htry : (v.sys.pc t).Trying op' :=
      (trying_run (hpre.snoc hstep) hmid htry₁).resolve_left (by simp [ho, Pc.Past])
    obtain rfl : o = op' := htry.op_eq ho
    exact ⟨pre, l :: post, u, rfl, hpre, hpost.cons hstep,
      exhausted_of_failing (hr₁.run hpre) hstep hu ho⟩
  · subst hls
    have hpre' : (t, Act.leave) ∉ pre := fun hm => hsame (List.mem_append_left _ hm)
    have hl' : l ≠ (t, .leave) := fun he => hsame (by simp [he])
    have hpost' : (t, Act.leave) ∉ post := fun hm =>
      hsame (List.mem_append_right _ (List.mem_cons_of_mem _ hm))
    have htryu : (u.sys.pc t).Trying op' := by
      refine (trying_run hpre hpre' htry₁).resolve_left fun hp => hnotpast ?_
      exact past_run hpost hpost' (past_step hstep hl' hp)
    rcases trying_step hstep hl' htryu with hp | ⟨_, hquiet⟩
    · exact absurd (past_run hpost hpost' hp) hnotpast
    · exact hquiet hl

/-- One thread has just called `rpcmsg_event_rx` on the empty queue. -/
def calledRx : World Unit := World.initial.exec (fun _ => .user) ((), .call .eventRx)

/-- Its load of the tail, the wait test and the empty test. -/
def rxSteps : List (Unit × Act) := [((), .step none), ((), .step none), ((), .step none)]

/-- `failure_is_honest` for a dequeue on the empty queue. -/
theorem failure_is_honest_calledRx :
    (∃ pre post w, rxSteps = pre ++ post ∧ (worldLts fun _ => .user).Run calledRx pre w ∧
      (worldLts fun _ => .user).Run w post (calledRx.play (fun _ => .user) rxSteps) ∧
      w.sys.queue.Exhausted .cons) ∧
    calledRx.sys.queue = rpcmsgQueueInit := by
  have hcall : (worldLts fun _ => .user).step World.initial ((), .call .eventRx) calledRx :=
    World.exec_step (by decide)
  have hrun : (worldLts fun _ => .user).Run calledRx rxSteps _ := World.run_play (by decide)
  have hret : (calledRx.play (fun _ => .user) rxSteps).sys.pc ()
      = .returned .eventRx (-1) .nothing :=
    rfl
  have h := failure_is_honest (.init rfl) hcall hrun (by decide) hret
  exact ⟨h.2.1, h.2.2.1.1⟩

end Call

end TiiSel4Vm.RpcQueue
