import TiiSel4Vm.Lib.WrapCounter
import TiiSel4Vm.Queue.History

/-!
# The markers of a queue, in every reachable state

`Inv` couples the four wrapping markers with the unbounded history, every thread's local copies and
the positions the threads in flight hold.  Its two delicate clauses are about a thread inside
`rpcmsg_commit_update`: if no commit happened since it loaded the head, its copy *is* the head, and
if moreover it saw itself as the last committer, every other thread in flight acquired later than
the tail it sampled.

* `Advance` — what a step of one thread guarantees to all others;
* `Quiet.inv`, `Inv.afterAcquire`, `Inv.afterCommit` — steps that only load or compute, acquisitions
  and commits keep `Inv`.
-/

namespace TiiSel4Vm.RpcQueue

open TiiSel4Vm.Transition TiiSel4Vm.WrapCounter

variable {τ : Type}

/-! ### The invariant -/

/-- The marker after `n` acquisitions: position and count advance together. -/
def wrapped (n : ℕ) : Marker := ⟨BitVec.ofNat 32 n, BitVec.ofNat 32 n⟩

theorem wrapped_next (n : ℕ) : (wrapped n).next = wrapped (n + 1) := by
  simp only [wrapped, Marker.next, wrap_succ]

theorem freshBound_lt : freshBound < 2 ^ 32 := by decide

/-- Every ring entry is the id of a message. -/
def RingHoldsIds (q : Queue) : Prop := ∀ i, ∃ id, q.ring i = rpcmsgMsgToId id

/-- There is an entry left to acquire on side `s`. -/
def Room (h : Hist τ) : Side → Prop
  | .prod => h.acquired .prod < h.published .cons + rpcmsgBufferSize
  | .cons => h.acquired .cons < h.published .prod

/-- `ot` is the tail as thread `t` loaded it. -/
def TailCopy (h : Hist τ) (t : τ) (s : Side) (ot : Marker) : Prop :=
  ot = wrapped (h.stamp t) ∧ h.stamp t ≤ h.acquired s

/-- `oh` is the head as thread `t` loaded it. -/
def HeadCopy (w : World τ) (t : τ) (s : Side) (oh : Marker) : Prop :=
  oh.count = BitVec.ofNat 32 (w.hist.stamp t) ∧ w.hist.stamp t ≤ w.hist.committed s ∧
    (w.hist.stamp t = w.hist.committed s → oh = (w.sys.queue.bound s).head)

/-- `tl` is the tail as thread `t`, in flight, sampled it after loading the head. -/
def TailSample (w : World τ) (t : τ) (s : Side) (tl : Marker) : Prop :=
  tl = wrapped (w.hist.sample t) ∧ w.hist.stamp t < w.hist.sample t ∧
    w.hist.sample t ≤ w.hist.acquired s ∧
    (w.hist.stamp t = w.hist.committed s → w.hist.sample t = w.hist.stamp t + 1 →
      ∀ u, u ≠ t → (w.sys.pc u).InFlight s → w.hist.sample t ≤ w.hist.place u)

/-- What thread `t` may rely on about its local copies.  The guards make each clause say nothing
once the copy has gone stale. -/
def CopiesHold (w : World τ) (t : τ) : Prop :=
  match w.sys.pc t with
  | .acquiring op (.wait ot) => TailCopy w.hist t op.side ot
  | .acquiring op (.check ot) =>
      TailCopy w.hist t op.side ot ∧
        (w.hist.stamp t = w.hist.acquired op.side →
          w.hist.acquired op.side ≤ w.hist.published op.side + rpcmsgHtdMax)
  | .acquiring op (.cas ot) =>
      TailCopy w.hist t op.side ot ∧
        (w.hist.stamp t = w.hist.acquired op.side →
          w.hist.acquired op.side ≤ w.hist.published op.side + rpcmsgHtdMax ∧
            Room w.hist op.side)
  | .body _ entry _ => entry = BitVec.ofNat 32 (w.hist.place t)
  | .committing op _ (.loadTail oh) => HeadCopy w t op.side oh
  | .committing op _ (.cas oh tl) => HeadCopy w t op.side oh ∧ TailSample w t op.side tl
  | _ => True

/-- **The queue invariant.** -/
structure Inv [Fintype τ] (w : World τ) : Prop where
  tail_eq : ∀ s, (w.sys.queue.bound s).tail = wrapped (w.hist.acquired s)
  head_eq : ∀ s, (w.sys.queue.bound s).head =
    ⟨BitVec.ofNat 32 (w.hist.published s), BitVec.ofNat 32 (w.hist.committed s)⟩
  published_le : ∀ s, w.hist.published s ≤ w.hist.committed s
  acquired_le : ∀ s, w.hist.acquired s ≤ w.hist.published s + (rpcmsgHtdMax + 1)
  settled : ∀ s, w.hist.committed s = w.hist.acquired s → w.hist.published s = w.hist.acquired s
  cons_le_prod : w.hist.acquired .cons ≤ w.hist.published .prod
  prod_le_cons : w.hist.acquired .prod ≤ w.hist.published .cons + rpcmsgBufferSize
  inFlight : ∀ s, w.hist.committed s + countThreads (Pc.InFlight s) w.sys.pc = w.hist.acquired s
  place_range : ∀ s t, (w.sys.pc t).InFlight s →
    w.hist.published s ≤ w.hist.place t ∧ w.hist.place t < w.hist.acquired s
  place_inj : ∀ s t u, (w.sys.pc t).InFlight s → (w.sys.pc u).InFlight s →
    w.hist.place t = w.hist.place u → t = u
  ring : RingHoldsIds w.sys.queue
  copies : ∀ t, CopiesHold w t

section Facts

variable [Fintype τ] {w : World τ}

theorem Inv.committed_le (h : Inv w) (s : Side) : w.hist.committed s ≤ w.hist.acquired s := by
  have := h.inFlight s
  omega

/-- A thread in flight keeps the commits behind the acquisitions. -/
theorem Inv.committed_lt (h : Inv w) {s : Side} {t : τ} (ht : (w.sys.pc t).InFlight s) :
    w.hist.committed s < w.hist.acquired s := by
  have hpos := countThreads_pos (p := Pc.InFlight s) (f := w.sys.pc) (a := t) ht
  have := h.inFlight s
  omega

/-- With no thread in flight every acquisition is committed and published. -/
theorem Inv.settled_of_idle (h : Inv w) {s : Side} (hidle : ∀ t, ¬ (w.sys.pc t).InFlight s) :
    w.hist.committed s = w.hist.acquired s ∧ w.hist.published s = w.hist.acquired s := by
  have hzero : countThreads (Pc.InFlight s) w.sys.pc = 0 := countThreads_eq_zero_iff.mpr hidle
  have hcount := h.inFlight s
  have hall : w.hist.committed s = w.hist.acquired s := by omega
  exact ⟨hall, h.settled s hall⟩

/-! The positions in the queue are the wrapped counts. -/

theorem Inv.cons_tail_pos (h : Inv w) :
    w.sys.queue.cons.tail.pos = BitVec.ofNat 32 (w.hist.acquired .cons) :=
  congrArg Marker.pos (h.tail_eq .cons)

theorem Inv.cons_head_pos (h : Inv w) :
    w.sys.queue.cons.head.pos = BitVec.ofNat 32 (w.hist.published .cons) :=
  congrArg Marker.pos (h.head_eq .cons)

theorem Inv.prod_tail_pos (h : Inv w) :
    w.sys.queue.prod.tail.pos = BitVec.ofNat 32 (w.hist.acquired .prod) :=
  congrArg Marker.pos (h.tail_eq .prod)

theorem Inv.prod_head_pos (h : Inv w) :
    w.sys.queue.prod.head.pos = BitVec.ofNat 32 (w.hist.published .prod) :=
  congrArg Marker.pos (h.head_eq .prod)

theorem inv_initial : Inv (World.initial : World τ) where
  tail_eq s := by cases s <;> rfl
  head_eq s := by cases s <;> rfl
  published_le _ := Nat.le_refl _
  acquired_le _ := Nat.zero_le _
  settled _ _ := rfl
  cons_le_prod := Nat.le_refl _
  prod_le_cons := Nat.zero_le _
  inFlight s := by
    have hzero : countThreads (Pc.InFlight s) (World.initial : World τ).sys.pc = 0 :=
      countThreads_eq_zero_iff.mpr fun _ h => h
    rw [hzero]
    rfl
  place_range _ _ h := h.elim
  place_inj _ _ _ h := h.elim
  ring _ := ⟨0, rfl⟩
  copies _ := trivial

end Facts

/-! ### What a step guarantees to the other threads -/

/-- Thread `t` moved from `w` to `w'`: the others kept their local state, counts only grew, a head
only changed with a commit, and a position newly held is a fresh one. -/
structure Advance (w w' : World τ) (t : τ) : Prop where
  pc : ∀ u, u ≠ t → w'.sys.pc u = w.sys.pc u
  place : ∀ u, u ≠ t → w'.hist.place u = w.hist.place u
  stamp : ∀ u, u ≠ t → w'.hist.stamp u = w.hist.stamp u
  sample : ∀ u, u ≠ t → w'.hist.sample u = w.hist.sample u
  acquired : ∀ s, w.hist.acquired s ≤ w'.hist.acquired s
  committed : ∀ s, w.hist.committed s ≤ w'.hist.committed s
  published : ∀ s, w.hist.published s ≤ w'.hist.published s
  head : ∀ s, w'.hist.committed s = w.hist.committed s →
    (w'.sys.queue.bound s).head = (w.sys.queue.bound s).head
  held : ∀ s, (w'.sys.pc t).InFlight s →
    ((w.sys.pc t).InFlight s ∧ w'.hist.place t = w.hist.place t) ∨
      w.hist.acquired s ≤ w'.hist.place t

theorem Room.mono {h h' : Hist τ} {s : Side} (hr : Room h s) (ha : h'.acquired s = h.acquired s)
    (hp : ∀ r, h.published r ≤ h'.published r) : Room h' s := by
  cases s with
  | prod =>
      have := hp .cons
      simp only [Room] at hr ⊢
      omega
  | cons =>
      have := hp .prod
      simp only [Room] at hr ⊢
      omega

namespace Advance

variable {w w' : World τ} {t u : τ}

theorem tailCopy (a : Advance w w' t) (hu : u ≠ t) {s : Side} {ot : Marker}
    (h : TailCopy w.hist u s ot) : TailCopy w'.hist u s ot := by
  obtain ⟨hot, hle⟩ := h
  refine ⟨by rw [hot, a.stamp u hu], ?_⟩
  rw [a.stamp u hu]
  exact le_trans hle (a.acquired s)

/-- If the copy of the tail is still current after the step, it was before. -/
theorem acquired_eq (a : Advance w w' t) (hu : u ≠ t) {s : Side}
    (hle : w.hist.stamp u ≤ w.hist.acquired s) (heq : w'.hist.stamp u = w'.hist.acquired s) :
    w.hist.stamp u = w.hist.acquired s ∧ w'.hist.acquired s = w.hist.acquired s := by
  have hst := a.stamp u hu
  have hac := a.acquired s
  omega

theorem headCopy (a : Advance w w' t) (hu : u ≠ t) {s : Side} {oh : Marker}
    (h : HeadCopy w u s oh) : HeadCopy w' u s oh := by
  obtain ⟨hc, hle, hcur⟩ := h
  have hst := a.stamp u hu
  have hco := a.committed s
  refine ⟨by rw [hc, hst], by omega, fun heq => ?_⟩
  rw [a.head s (by omega)]
  exact hcur (by omega)

theorem tailSample (a : Advance w w' t) (hu : u ≠ t) {s : Side} {oh tl : Marker}
    (hh : HeadCopy w u s oh) (h : TailSample w u s tl) : TailSample w' u s tl := by
  obtain ⟨_, hstle, _⟩ := hh
  obtain ⟨htl, hlt, hle, hothers⟩ := h
  have hst := a.stamp u hu
  have hsa := a.sample u hu
  have hco := a.committed s
  have hac := a.acquired s
  refine ⟨by rw [htl, hsa], by omega, by omega, fun heq hlast v hv hfly => ?_⟩
  have hold : ∀ x, x ≠ u → (w.sys.pc x).InFlight s → w.hist.sample u ≤ w.hist.place x :=
    hothers (by omega) (by omega)
  by_cases hvt : v = t
  · subst hvt
    rcases a.held s hfly with ⟨hbefore, hplace⟩ | hnew
    · rw [hsa, hplace]
      exact hold v hv hbefore
    · omega
  · rw [a.pc v hvt] at hfly
    rw [hsa, a.place v hvt]
    exact hold v hv hfly

/-- The other threads' copies survive the step. -/
theorem copiesHold (a : Advance w w' t) (hu : u ≠ t) (h : CopiesHold w u) : CopiesHold w' u := by
  have hac := a.acquired
  have hpub := a.published
  unfold CopiesHold at h ⊢
  rw [a.pc u hu]
  split at h
  · exact a.tailCopy hu h
  · rename_i op ot _
    refine ⟨a.tailCopy hu h.1, fun heq => ?_⟩
    obtain ⟨hcur, hsame⟩ := a.acquired_eq hu h.1.2 heq
    have := h.2 hcur
    have := hpub op.side
    omega
  · rename_i op ot _
    refine ⟨a.tailCopy hu h.1, fun heq => ?_⟩
    obtain ⟨hcur, hsame⟩ := a.acquired_eq hu h.1.2 heq
    obtain ⟨hnear, hroom⟩ := h.2 hcur
    have := hpub op.side
    exact ⟨by omega, hroom.mono hsame hpub⟩
  · rw [a.place u hu]
    exact h
  · exact a.headCopy hu h
  · exact ⟨a.headCopy hu h.1, a.tailSample hu h.1 h.2⟩
  · trivial

end Advance

/-! ### Quiet steps -/

variable [DecidableEq τ]

/-- Thread `t` moved without touching a marker or a count: at most it loaded a copy. -/
structure Quiet (w w' : World τ) (t : τ) (pc' : Pc) : Prop where
  bound : ∀ s, w'.sys.queue.bound s = w.sys.queue.bound s
  pc : w'.sys.pc = Function.update w.sys.pc t pc'
  acquirers : w'.hist.acquirers = w.hist.acquirers
  commits : w'.hist.commits = w.hist.commits
  published : w'.hist.published = w.hist.published
  place : w'.hist.place = w.hist.place
  stamp : ∀ u, u ≠ t → w'.hist.stamp u = w.hist.stamp u
  sample : ∀ u, u ≠ t → w'.hist.sample u = w.hist.sample u
  inFlight : ∀ s, pc'.InFlight s ↔ (w.sys.pc t).InFlight s
  ring : RingHoldsIds w.sys.queue → RingHoldsIds w'.sys.queue

namespace Quiet

variable {w w' : World τ} {t : τ} {pc' : Pc}

theorem acquired (h : Quiet w w' t pc') (s : Side) : w'.hist.acquired s = w.hist.acquired s := by
  rw [Hist.acquired, h.acquirers]
  rfl

theorem committed (h : Quiet w w' t pc') (s : Side) : w'.hist.committed s = w.hist.committed s := by
  rw [Hist.committed, h.commits]
  rfl

theorem inFlight_iff (h : Quiet w w' t pc') (s : Side) (u : τ) :
    (w'.sys.pc u).InFlight s ↔ (w.sys.pc u).InFlight s := by
  rw [h.pc]
  by_cases hu : u = t
  · subst hu
    rw [Function.update_self]
    exact h.inFlight s
  · rw [Function.update_of_ne hu]

theorem advance (h : Quiet w w' t pc') : Advance w w' t where
  pc u hu := by rw [h.pc, Function.update_of_ne hu]
  place _ _ := by rw [h.place]
  stamp := h.stamp
  sample := h.sample
  acquired s := (h.acquired s).ge
  committed s := (h.committed s).ge
  published s := by rw [h.published]
  head s _ := by rw [h.bound]
  held s hfly := Or.inl ⟨(h.inFlight_iff s t).mp hfly, by rw [h.place]⟩

/-- **Quiet steps keep the invariant**, when the moved thread's own copies are sound. -/
theorem inv [Fintype τ] (h : Quiet w w' t pc') (hi : Inv w) (hown : CopiesHold w' t) : Inv w' where
  tail_eq s := by rw [h.bound, h.acquired, hi.tail_eq]
  head_eq s := by rw [h.bound, h.committed, h.published, hi.head_eq]
  published_le s := by rw [h.committed, h.published]; exact hi.published_le s
  acquired_le s := by rw [h.acquired, h.published]; exact hi.acquired_le s
  settled s := by rw [h.committed, h.acquired, h.published]; exact hi.settled s
  cons_le_prod := by rw [h.acquired, h.published]; exact hi.cons_le_prod
  prod_le_cons := by rw [h.acquired, h.published]; exact hi.prod_le_cons
  inFlight s := by
    rw [h.committed, h.acquired, h.pc, countThreads_update_same (h.inFlight s).symm]
    exact hi.inFlight s
  place_range s u hu := by
    rw [h.acquired, h.published, h.place]
    exact hi.place_range s u ((h.inFlight_iff s u).mp hu)
  place_inj s u v hu hv := by
    rw [h.place]
    exact hi.place_inj s u v ((h.inFlight_iff s u).mp hu) ((h.inFlight_iff s v).mp hv)
  ring := h.ring hi.ring
  copies u := by
    by_cases hu : u = t
    · exact hu ▸ hown
    · exact h.advance.copiesHold hu (hi.copies u)

end Quiet

/-! ### Acquisitions -/

section Acquisition

variable {w w' : World τ} {t : τ} {op : Op} {ot : Marker}

/-- The world after thread `t` swapped its tail copy `ot` for the next tail. -/
def World.afterAcquire (w : World τ) (t : τ) (op : Op) (ot : Marker) : World τ :=
  ⟨⟨w.sys.queue.setBound { w.sys.queue.bound op.side with tail := ot.next } op.side, w.sys.buffer,
      Function.update w.sys.pc t (.body op ot.pos op.body)⟩,
    w.hist.record t (.acquired op)⟩

theorem record_acquired_same (h : Hist τ) :
    (h.record t (.acquired op)).acquired op.side = h.acquired op.side + 1 := by
  simp [Hist.record, Hist.acquired]

theorem record_acquired_ne (h : Hist τ) {s : Side} (hs : s ≠ op.side) :
    (h.record t (.acquired op)).acquired s = h.acquired s := by
  simp [Hist.record, Hist.acquired, Function.update_of_ne hs]

theorem record_acquired_mono (h : Hist τ) (s : Side) :
    h.acquired s ≤ (h.record t (.acquired op)).acquired s := by
  by_cases hs : s = op.side
  · subst hs
    rw [record_acquired_same]
    omega
  · rw [record_acquired_ne h hs]

theorem afterAcquire_head (s : Side) :
    ((w.afterAcquire t op ot).sys.queue.bound s).head = (w.sys.queue.bound s).head := by
  by_cases hs : s = op.side
  · subst hs
    simp [World.afterAcquire]
  · simp [World.afterAcquire, Queue.bound_setBound_ne _ _ hs]

theorem afterAcquire_inFlight (s : Side) :
    ((w.afterAcquire t op ot).sys.pc t).InFlight s ↔ op.side = s := by
  simp [World.afterAcquire, Pc.InFlight]

theorem afterAcquire_advance : Advance w (w.afterAcquire t op ot) t where
  pc u hu := Function.update_of_ne hu _ _
  place u hu := Function.update_of_ne hu _ _
  stamp _ _ := rfl
  sample _ _ := rfl
  acquired s := record_acquired_mono w.hist s
  committed _ := Nat.le_refl _
  published _ := Nat.le_refl _
  head s _ := afterAcquire_head s
  held s hfly := by
    right
    rw [afterAcquire_inFlight] at hfly
    subst hfly
    simp [World.afterAcquire, Hist.record]

omit [DecidableEq τ] in
/-- A fresh copy of the tail that compares equal to the tail is the current tail. -/
theorem stamp_eq_acquired [Fintype τ] (hi : Inv w) (hcopy : TailCopy w.hist t op.side ot)
    (hfresh : w.hist.acquired op.side - w.hist.stamp t < freshBound)
    (heq : (w.sys.queue.bound op.side).tail = ot) :
    w.hist.stamp t = w.hist.acquired op.side := by
  obtain ⟨hot, hle⟩ := hcopy
  rw [hi.tail_eq, hot] at heq
  have hpos : BitVec.ofNat 32 (w.hist.acquired op.side) = BitVec.ofNat 32 (w.hist.stamp t) :=
    congrArg Marker.pos heq
  exact wrap_inj hle (lt_trans hfresh freshBound_lt) hpos.symm

/-- **An acquisition keeps the invariant.** -/
theorem Inv.afterAcquire [Fintype τ] (hi : Inv w) (hpc : w.sys.pc t = .acquiring op (.cas ot))
    (hfresh : w.hist.acquired op.side - w.hist.stamp t < freshBound)
    (heq : (w.sys.queue.bound op.side).tail = ot) : Inv (w.afterAcquire t op ot) := by
  have hown := hi.copies t
  simp only [CopiesHold, hpc] at hown
  obtain ⟨hcopy, hguard⟩ := hown
  have hcur := stamp_eq_acquired hi hcopy hfresh heq
  obtain ⟨hnear, hroom⟩ := hguard hcur
  have hidle : ∀ s, ¬ (w.sys.pc t).InFlight s := fun s => by simp [hpc, Pc.InFlight]
  have hplace : (w.afterAcquire t op ot).hist.place t = w.hist.acquired op.side :=
    Function.update_self ..
  have hother : ∀ u, u ≠ t → (w.afterAcquire t op ot).hist.place u = w.hist.place u :=
    afterAcquire_advance.place
  have hpub : ∀ s, w.hist.published s ≤ w.hist.acquired s := fun s =>
    le_trans (hi.published_le s) (hi.committed_le s)
  -- the thread in flight on `s` after the step is `t` on its own side, or was in flight before
  have hfly : ∀ s u, ((w.afterAcquire t op ot).sys.pc u).InFlight s →
      (u = t ∧ op.side = s) ∨ (u ≠ t ∧ (w.sys.pc u).InFlight s) := by
    intro s u hu
    by_cases hut : u = t
    · subst hut
      exact Or.inl ⟨rfl, (afterAcquire_inFlight s).mp hu⟩
    · rw [afterAcquire_advance.pc u hut] at hu
      exact Or.inr ⟨hut, hu⟩
  refine
    { tail_eq := fun s => ?_, head_eq := fun s => ?_, published_le := hi.published_le,
      acquired_le := fun s => ?_, settled := fun s hs => ?_, cons_le_prod := ?_,
      prod_le_cons := ?_, inFlight := fun s => ?_, place_range := fun s u hu => ?_,
      place_inj := fun s u v hu hv huv => ?_, ring := fun i => ?_, copies := fun u => ?_ }
  · by_cases hs : s = op.side
    · subst hs
      show ((w.sys.queue.setBound _ op.side).bound op.side).tail = _
      rw [Queue.bound_setBound]
      show ot.next = wrapped ((w.hist.record t (.acquired op)).acquired op.side)
      rw [record_acquired_same, hcopy.1, hcur, wrapped_next]
    · show ((w.sys.queue.setBound _ op.side).bound s).tail
        = wrapped ((w.hist.record t (.acquired op)).acquired s)
      rw [Queue.bound_setBound_ne _ _ hs, record_acquired_ne _ hs, hi.tail_eq]
  · rw [afterAcquire_head]
    exact hi.head_eq s
  · show (w.hist.record t (.acquired op)).acquired s ≤ w.hist.published s + _
    by_cases hs : s = op.side
    · subst hs
      rw [record_acquired_same]
      omega
    · rw [record_acquired_ne _ hs]
      exact hi.acquired_le s
  · show w.hist.published s = (w.hist.record t (.acquired op)).acquired s
    have hs' : w.hist.committed s = (w.hist.record t (.acquired op)).acquired s := hs
    by_cases hside : s = op.side
    · subst hside
      rw [record_acquired_same] at hs'
      have := hi.committed_le op.side
      omega
    · rw [record_acquired_ne _ hside] at hs' ⊢
      exact hi.settled s hs'
  · show (w.hist.record t (.acquired op)).acquired .cons ≤ w.hist.published .prod
    by_cases hside : Side.cons = op.side
    · rw [hside, record_acquired_same, ← hside]
      rw [← hside] at hroom
      exact hroom
    · rw [record_acquired_ne _ hside]
      exact hi.cons_le_prod
  · show (w.hist.record t (.acquired op)).acquired .prod ≤ w.hist.published .cons + _
    by_cases hside : Side.prod = op.side
    · rw [hside, record_acquired_same, ← hside]
      rw [← hside] at hroom
      exact hroom
    · rw [record_acquired_ne _ hside]
      exact hi.prod_le_cons
  · show w.hist.committed s + countThreads (Pc.InFlight s) (Function.update w.sys.pc t _)
      = (w.hist.record t (.acquired op)).acquired s
    have hbefore := hi.inFlight s
    by_cases hs : s = op.side
    · subst hs
      rw [countThreads_update_enter (hidle op.side) (by simp [Pc.InFlight]), record_acquired_same]
      omega
    · rw [countThreads_update_same, record_acquired_ne _ hs]
      · exact hbefore
      · simp only [hpc, Pc.InFlight, false_iff]
        exact fun h => hs h.symm
  · show w.hist.published s ≤ _ ∧ _ < (w.hist.record t (.acquired op)).acquired s
    rcases hfly s u hu with ⟨rfl, rfl⟩ | ⟨hut, hbefore⟩
    · rw [hplace, record_acquired_same]
      exact ⟨hpub op.side, Nat.lt_succ_self _⟩
    · rw [hother u hut]
      obtain ⟨hlo, hhi⟩ := hi.place_range s u hbefore
      exact ⟨hlo, lt_of_lt_of_le hhi (record_acquired_mono w.hist s)⟩
  · rcases hfly s u hu with ⟨rfl, rfl⟩ | ⟨hut, hubefore⟩ <;>
      rcases hfly _ v hv with ⟨rfl, hside⟩ | ⟨hvt, hvbefore⟩
    · rfl
    · rw [hplace, hother v hvt] at huv
      have := (hi.place_range op.side v hvbefore).2
      omega
    · subst hside
      rw [hplace, hother u hut] at huv
      have := (hi.place_range op.side u hubefore).2
      omega
    · rw [hother u hut, hother v hvt] at huv
      exact hi.place_inj s u v hubefore hvbefore huv
  · obtain ⟨id, hid⟩ := hi.ring i
    exact ⟨id, by simpa [World.afterAcquire] using hid⟩
  · by_cases hu : u = t
    · subst hu
      have hbody : (w.afterAcquire u op ot).sys.pc u = .body op ot.pos op.body :=
        Function.update_self ..
      simp only [CopiesHold, hbody]
      rw [hplace, hcopy.1, hcur]
      rfl
    · exact afterAcquire_advance.copiesHold hu (hi.copies u)

end Acquisition

/-! ### Commits -/

section CommitStep

variable {w : World τ} {t : τ} {op : Op} {out : Out} {oh tl : Marker}

/-- The world after thread `t` swapped its head copy `oh` for the new head. -/
def World.afterCommit (w : World τ) (t : τ) (op : Op) (out : Out) (oh tl : Marker) : World τ :=
  ⟨⟨w.sys.queue.setBound { w.sys.queue.bound op.side with head := newHead oh tl } op.side,
      w.sys.buffer, Function.update w.sys.pc t (.returned op 0 out)⟩,
    w.hist.record t (.committed op (decide (LastCommitter oh tl)) out)⟩

theorem record_committed_same (h : Hist τ) (publish : Bool) :
    (h.record t (.committed op publish out)).committed op.side = h.committed op.side + 1 := by
  simp [Hist.record, Hist.committed]

theorem record_committed_ne (h : Hist τ) (publish : Bool) {s : Side} (hs : s ≠ op.side) :
    (h.record t (.committed op publish out)).committed s = h.committed s := by
  simp [Hist.record, Hist.committed, Function.update_of_ne hs]

theorem record_published_same (h : Hist τ) (publish : Bool) :
    (h.record t (.committed op publish out)).published op.side
      = if publish then h.committed op.side + 1 else h.published op.side := by
  cases publish <;> simp [Hist.record]

theorem record_published_ne (h : Hist τ) (publish : Bool) {s : Side} (hs : s ≠ op.side) :
    (h.record t (.committed op publish out)).published s = h.published s := by
  cases publish <;> simp [Hist.record, Function.update_of_ne hs]

theorem afterCommit_inFlight (s : Side) (u : τ)
    (h : ((w.afterCommit t op out oh tl).sys.pc u).InFlight s) :
    u ≠ t ∧ (w.sys.pc u).InFlight s := by
  by_cases hu : u = t
  · subst hu
    simp [World.afterCommit, Pc.InFlight] at h
  · simp only [World.afterCommit, Function.update_of_ne hu] at h
    exact ⟨hu, h⟩

theorem afterCommit_published [Fintype τ] (hi : Inv w) (s : Side) :
    w.hist.published s ≤ (w.afterCommit t op out oh tl).hist.published s := by
  show w.hist.published s ≤
    (w.hist.record t (.committed op (decide (LastCommitter oh tl)) out)).published s
  by_cases hs : s = op.side
  · subst hs
    rw [record_published_same]
    have := hi.published_le op.side
    split <;> omega
  · rw [record_published_ne _ _ hs]

theorem afterCommit_advance [Fintype τ] (hi : Inv w) :
    Advance w (w.afterCommit t op out oh tl) t where
  pc u hu := Function.update_of_ne hu _ _
  place _ _ := rfl
  stamp _ _ := rfl
  sample _ _ := rfl
  acquired _ := Nat.le_refl _
  committed s := by
    show w.hist.committed s ≤
      (w.hist.record t (.committed op (decide (LastCommitter oh tl)) out)).committed s
    by_cases hs : s = op.side
    · subst hs
      rw [record_committed_same]
      omega
    · rw [record_committed_ne _ _ hs]
  published := afterCommit_published hi
  head s hsame := by
    by_cases hs : s = op.side
    · subst hs
      have hgrown : (w.afterCommit t op out oh tl).hist.committed op.side
          = w.hist.committed op.side + 1 := record_committed_same _ _
      omega
    · simp [World.afterCommit, Queue.bound_setBound_ne _ _ hs]
  held s hfly := absurd rfl (afterCommit_inFlight s t hfly).1

omit [DecidableEq τ] in
/-- A fresh copy of the head that compares equal to the head is the current head. -/
theorem stamp_eq_committed [Fintype τ] (hi : Inv w) (hcopy : HeadCopy w t op.side oh)
    (hfresh : w.hist.committed op.side - w.hist.stamp t < freshBound)
    (heq : (w.sys.queue.bound op.side).head = oh) :
    w.hist.stamp t = w.hist.committed op.side := by
  obtain ⟨hoh, hle, _⟩ := hcopy
  have hcount : BitVec.ofNat 32 (w.hist.committed op.side) = BitVec.ofNat 32 (w.hist.stamp t) := by
    rw [← hoh, ← heq, hi.head_eq]
  exact wrap_inj hle (lt_trans hfresh freshBound_lt) hcount.symm

omit [DecidableEq τ] in
/-- A committer whose head copy is current sees itself as the last one exactly when it sampled the
tail with no other acquisition outstanding. -/
theorem lastCommitter_iff [Fintype τ] (hi : Inv w) (hcopy : HeadCopy w t op.side oh)
    (hsample : TailSample w t op.side tl)
    (hcur : w.hist.stamp t = w.hist.committed op.side) :
    LastCommitter oh tl ↔ w.hist.sample t = w.hist.committed op.side + 1 := by
  obtain ⟨htl, hlt, hle, _⟩ := hsample
  have hpub := hi.published_le op.side
  have hacq := hi.acquired_le op.side
  have hcounts : LastCommitter oh tl ↔
      BitVec.ofNat 32 (w.hist.committed op.side + 1) = BitVec.ofNat 32 (w.hist.sample t) := by
    rw [LastCommitter, hcopy.1, htl, hcur, wrap_succ]
    rfl
  rw [hcounts]
  constructor
  · intro h
    have hclose : w.hist.sample t - (w.hist.committed op.side + 1) < 2 ^ 32 := by
      simp only [rpcmsgHtdMax, rpcmsgBufferSize] at hacq
      omega
    exact (wrap_inj (by omega) hclose h).symm
  · intro h
    rw [h]

/-- **A commit keeps the invariant.** -/
theorem Inv.afterCommit [Fintype τ] (hi : Inv w)
    (hpc : w.sys.pc t = .committing op out (.cas oh tl))
    (hfresh : w.hist.committed op.side - w.hist.stamp t < freshBound)
    (heq : (w.sys.queue.bound op.side).head = oh) : Inv (w.afterCommit t op out oh tl) := by
  have hown := hi.copies t
  simp only [CopiesHold, hpc] at hown
  obtain ⟨hcopy, hsample⟩ := hown
  have hcur := stamp_eq_committed hi hcopy hfresh heq
  have hlast := lastCommitter_iff hi hcopy hsample hcur
  obtain ⟨htl, hstamp, hsampled, hothers⟩ := hsample
  have hfly : (w.sys.pc t).InFlight op.side := by simp [hpc, Pc.InFlight]
  have hroom := hi.committed_lt hfly
  have hpubmono : ∀ s, w.hist.published s ≤ (w.afterCommit t op out oh tl).hist.published s :=
    afterCommit_published hi
  have hcommits : (w.afterCommit t op out oh tl).hist.committed op.side
      = w.hist.committed op.side + 1 := record_committed_same _ _
  have hcommitsNe : ∀ s, s ≠ op.side →
      (w.afterCommit t op out oh tl).hist.committed s = w.hist.committed s :=
    fun s hs => record_committed_ne _ _ hs
  have hpub : (w.afterCommit t op out oh tl).hist.published op.side
      = if LastCommitter oh tl then w.hist.committed op.side + 1
        else w.hist.published op.side := by
    show (w.hist.record t (.committed op (decide (LastCommitter oh tl)) out)).published op.side = _
    rw [record_published_same]
    simp only [decide_eq_true_eq]
  have hpubNe : ∀ s, s ≠ op.side →
      (w.afterCommit t op out oh tl).hist.published s = w.hist.published s :=
    fun s hs => record_published_ne _ _ hs
  refine
    { tail_eq := fun s => ?_, head_eq := fun s => ?_, published_le := fun s => ?_,
      acquired_le := fun s => le_trans (hi.acquired_le s) (Nat.add_le_add_right (hpubmono s) _),
      settled := fun s hs => ?_, cons_le_prod := le_trans hi.cons_le_prod (hpubmono _),
      prod_le_cons := le_trans hi.prod_le_cons (Nat.add_le_add_right (hpubmono _) _),
      inFlight := fun s => ?_, place_range := fun s u hu => ?_,
      place_inj := fun s u v hu hv huv => ?_, ring := fun i => ?_, copies := fun u => ?_ }
  · show ((w.sys.queue.setBound _ op.side).bound s).tail = wrapped (w.hist.acquired s)
    by_cases hs : s = op.side
    · subst hs
      rw [Queue.bound_setBound]
      exact hi.tail_eq op.side
    · rw [Queue.bound_setBound_ne _ _ hs]
      exact hi.tail_eq s
  · by_cases hs : s = op.side
    · subst hs
      rw [hcommits, hpub]
      show ((w.sys.queue.setBound _ op.side).bound op.side).head = _
      rw [Queue.bound_setBound]
      show newHead oh tl = _
      by_cases hl : LastCommitter oh tl
      · rw [newHead, if_pos hl, if_pos hl, htl, hlast.mp hl, hcopy.1, hcur, wrap_succ]
        rfl
      · have hhead : oh.pos = BitVec.ofNat 32 (w.hist.published op.side) := by
          rw [← heq, hi.head_eq]
        simp only [newHead, hl, if_false, hhead, hcopy.1, hcur, wrap_succ]
    · rw [hcommitsNe s hs, hpubNe s hs]
      show ((w.sys.queue.setBound _ op.side).bound s).head = _
      rw [Queue.bound_setBound_ne _ _ hs]
      exact hi.head_eq s
  · by_cases hs : s = op.side
    · subst hs
      have := hi.published_le op.side
      rw [hpub, hcommits]
      split <;> omega
    · rw [hpubNe s hs, hcommitsNe s hs]
      exact hi.published_le s
  · show (w.afterCommit t op out oh tl).hist.published s = w.hist.acquired s
    have hs' : (w.afterCommit t op out oh tl).hist.committed s = w.hist.acquired s := hs
    by_cases hside : s = op.side
    · -- no acquisition is outstanding, so none was when `t` sampled the tail: it publishes
      subst hside
      rw [hcommits] at hs'
      have hl : LastCommitter oh tl := hlast.mpr (by omega)
      rw [hpub, if_pos hl]
      exact hs'
    · rw [hcommitsNe s hside] at hs'
      rw [hpubNe s hside]
      exact hi.settled s hs'
  · show _ + countThreads (Pc.InFlight s) (Function.update w.sys.pc t _) = w.hist.acquired s
    have hbefore := hi.inFlight s
    by_cases hs : s = op.side
    · subst hs
      have hleave := countThreads_update_leave (p := Pc.InFlight op.side)
        (b := .returned op 0 out) hfly (by simp [Pc.InFlight])
      rw [hcommits]
      omega
    · rw [hcommitsNe s hs, countThreads_update_same]
      · exact hbefore
      · simp only [hpc, Pc.InFlight, iff_false]
        exact fun h => hs h.symm
  · show _ ≤ w.hist.place u ∧ w.hist.place u < w.hist.acquired s
    obtain ⟨hut, hbefore⟩ := afterCommit_inFlight s u hu
    obtain ⟨hlo, hhi⟩ := hi.place_range s u hbefore
    refine ⟨?_, hhi⟩
    by_cases hs : s = op.side
    · subst hs
      rw [hpub]
      split
      · rename_i hl
        have hs1 := hlast.mp hl
        have := hothers hcur (by omega) u hut hbefore
        omega
      · exact hlo
    · rw [hpubNe s hs]
      exact hlo
  · exact hi.place_inj s u v (afterCommit_inFlight s u hu).2 (afterCommit_inFlight s v hv).2 huv
  · obtain ⟨id, hid⟩ := hi.ring i
    exact ⟨id, by simpa [World.afterCommit] using hid⟩
  · by_cases hu : u = t
    · subst hu
      have hret : (w.afterCommit u op out oh tl).sys.pc u = .returned op 0 out :=
        Function.update_self ..
      simp only [CopiesHold, hret]
    · exact (afterCommit_advance hi).copiesHold hu (hi.copies u)

end CommitStep

end TiiSel4Vm.RpcQueue
