import TiiSel4Vm.Queue.Order

/-!
# One thread alone in a retry loop

The acquire and commit loops retry their compare-and-swap with whatever the failed one left in the
local copy of the marker.  The compiler builtin leaves the value found; the `__KERNEL__` definition
leaves the stale copy, and neither loop loads the marker again.

* `solo_progress` — exactly when a thread left alone gets out of its loop, and that it does in every
  run in which no marker moves under a kernel build's copy;
* `stale_copy_livelock` — two kernel producers, one of which never gets out.
-/

namespace TiiSel4Vm.RpcQueue

open TiiSel4Vm.Transition

variable {τ : Type} [DecidableEq τ]

/-! ### Solo steps -/

/-- Thread `t` makes its next access; nothing happens if it has none. -/
def soloStep (variant : τ → CasVariant) (t : τ) (s : Sys τ) : Sys τ :=
  match sysStep variant s t (.step none) with
  | some r => r.1
  | none => s

/-- Inside `rpcmsg_acquire_prod_entry`, `rpcmsg_acquire_cons_entry` or `rpcmsg_commit_update`. -/
def Pc.InLoop : Pc → Prop
  | .acquiring _ _ => True
  | .committing _ _ _ => True
  | _ => False

/-- The next access is a compare-and-swap. -/
def Pc.AtCas : Pc → Prop
  | .acquiring _ (.cas _) => True
  | .committing _ _ (.cas _ _) => True
  | _ => False

/-- Run alone from `s`, thread `t` leaves its loop after at most `n` compare-and-swaps. -/
def Leaves (variant : τ → CasVariant) (t : τ) (n : ℕ) (s : Sys τ) : Prop :=
  LeavesWithin (soloStep variant t) (fun s => (s.pc t).InLoop) (fun s => (s.pc t).AtCas) n s

/-- The thread is in a loop, and if it is acquiring, the tail of its side is at most
`RPCMSG_HTD_MAX` ahead of the head. -/
def InLoopInReach (q : Queue) : Pc → Prop
  | .acquiring op _ => ¬ TooFar (q.bound op.side) (q.bound op.side).tail
  | .committing _ _ _ => True
  | _ => False

/-- The local copy of the marker gets the thread out: it is current, or (acquiring) it makes the
thread load the tail again or give up. -/
def CopyServes (q : Queue) : Pc → Prop
  | .acquiring op (.wait ot) | .acquiring op (.check ot) | .acquiring op (.cas ot) =>
      (q.bound op.side).tail = ot ∨ TooFar (q.bound op.side) ot ∨ entries op.side q ot = 0#32
  | .committing op _ (.loadTail oh) | .committing op _ (.cas oh _) => (q.bound op.side).head = oh
  | _ => True

section Solo

variable {variant : τ → CasVariant} {t : τ} {op : Op} {out : Out} {ot oh tl : Marker} {s : Sys τ}

/-- A solo step is the move that the thread's location allows. -/
theorem soloStep_eq {q' : Queue} {buf' : RpcMsgBuffer} {pc' : Pc} {e : Event}
    (h : Moves (variant t) s.queue s.buffer (s.pc t) (.step none) q' buf' pc' e) :
    soloStep variant t s = ⟨q', buf', Function.update s.pc t pc'⟩ := by
  simp only [soloStep, sysStep, h.threadStep, Option.map_some]

/-- A move that is not an attempt. -/
theorem leaves_walk {pc pc' : Pc} {e : Event} {n : ℕ} (hpc : s.pc t = pc) (hcas : ¬ pc.AtCas)
    (h : Moves (variant t) s.queue s.buffer pc (.step none) s.queue s.buffer pc' e)
    (hnext : Leaves variant t n ⟨s.queue, s.buffer, Function.update s.pc t pc'⟩) :
    Leaves variant t n s := by
  refine LeavesWithin.walk (by rw [hpc]; exact hcas) ?_
  rw [soloStep_eq (by rw [hpc]; exact h)]
  exact hnext

/-- An attempt. -/
theorem leaves_attempt {pc pc' : Pc} {q' : Queue} {e : Event} {n : ℕ} (hpc : s.pc t = pc)
    (h : Moves (variant t) s.queue s.buffer pc (.step none) q' s.buffer pc' e)
    (hnext : Leaves variant t n ⟨q', s.buffer, Function.update s.pc t pc'⟩) :
    Leaves variant t (n + 1) s := by
  refine LeavesWithin.attempt ?_
  rw [soloStep_eq (by rw [hpc]; exact h)]
  exact hnext

/-- A move that is not an attempt and leaves the loop. -/
theorem leaves_exit {pc pc' : Pc} {e : Event} {n : ℕ} (hpc : s.pc t = pc) (hcas : ¬ pc.AtCas)
    (h : Moves (variant t) s.queue s.buffer pc (.step none) s.queue s.buffer pc' e)
    (hout : ¬ pc'.InLoop) : Leaves variant t n s :=
  leaves_walk hpc hcas h (LeavesWithin.out (by simpa using hout))

/-! ### Acquiring -/

/-- With a current copy of the tail, checking the entries ends the loop. -/
theorem leaves_check_current (hpc : s.pc t = .acquiring op (.check ot))
    (hserves : (s.queue.bound op.side).tail = ot ∨ entries op.side s.queue ot = 0#32) :
    Leaves variant t 1 s := by
  by_cases hzero : entries op.side s.queue ot = 0#32
  · exact leaves_exit hpc id (.full op ot hzero) id
  · have htail := hserves.resolve_right hzero
    refine leaves_walk hpc id (.room op ot hzero) ?_
    exact leaves_attempt (Function.update_self ..) (.acquire op ot htail)
      (LeavesWithin.out (by simp [Pc.InLoop]))

/-- In `rpcmsg_tail_wait` with a current copy of the tail. -/
theorem leaves_wait_current (hpc : s.pc t = .acquiring op (.wait ot))
    (hnear : ¬ TooFar (s.queue.bound op.side) ot)
    (hserves : (s.queue.bound op.side).tail = ot ∨ entries op.side s.queue ot = 0#32) :
    Leaves variant t 1 s :=
  leaves_walk hpc id (.near op ot hnear) (leaves_check_current (Function.update_self ..) hserves)

/-- Before a load of the tail. -/
theorem leaves_load (hpc : s.pc t = .acquiring op .load ∨ s.pc t = .acquiring op .reload)
    (hreach : ¬ TooFar (s.queue.bound op.side) (s.queue.bound op.side).tail) :
    Leaves variant t 1 s := by
  rcases hpc with hpc | hpc
  · exact leaves_walk hpc id (.load op)
      (leaves_wait_current (Function.update_self ..) hreach (Or.inl rfl))
  · exact leaves_walk hpc id (.reload op)
      (leaves_wait_current (Function.update_self ..) hreach (Or.inl rfl))

/-- In `rpcmsg_tail_wait` with a copy that serves. -/
theorem leaves_wait (hpc : s.pc t = .acquiring op (.wait ot))
    (hreach : ¬ TooFar (s.queue.bound op.side) (s.queue.bound op.side).tail)
    (hserves : (s.queue.bound op.side).tail = ot ∨ TooFar (s.queue.bound op.side) ot ∨
      entries op.side s.queue ot = 0#32) : Leaves variant t 1 s := by
  by_cases hfar : TooFar (s.queue.bound op.side) ot
  · exact leaves_walk hpc id (.far op ot hfar)
      (leaves_load (Or.inr (Function.update_self ..)) hreach)
  · exact leaves_wait_current hpc hfar (hserves.imp id fun h => h.resolve_left hfar)

/-- A compare-and-swap that fails leaves a copy that serves: the builtin leaves the tail itself, the
kernel's the copy it had. -/
theorem leaves_cas (hpc : s.pc t = .acquiring op (.cas ot))
    (hreach : ¬ TooFar (s.queue.bound op.side) (s.queue.bound op.side).tail)
    (hserves : variant t = .user ∨ (s.queue.bound op.side).tail = ot ∨
      TooFar (s.queue.bound op.side) ot ∨ entries op.side s.queue ot = 0#32) :
    Leaves variant t 2 s := by
  by_cases htail : (s.queue.bound op.side).tail = ot
  · exact leaves_attempt hpc (.acquire op ot htail) (LeavesWithin.out (by simp [Pc.InLoop]))
  · refine leaves_attempt hpc (.acquireLost op ot htail) ?_
    refine leaves_wait (Function.update_self ..) hreach ?_
    cases hv : variant t with
    | user => exact Or.inl rfl
    | kernel => exact hserves.resolve_left (by simp [hv])

theorem leaves_check (hpc : s.pc t = .acquiring op (.check ot))
    (hreach : ¬ TooFar (s.queue.bound op.side) (s.queue.bound op.side).tail)
    (hserves : variant t = .user ∨ (s.queue.bound op.side).tail = ot ∨
      TooFar (s.queue.bound op.side) ot ∨ entries op.side s.queue ot = 0#32) :
    Leaves variant t 2 s := by
  by_cases hzero : entries op.side s.queue ot = 0#32
  · exact leaves_exit hpc id (.full op ot hzero) id
  · exact leaves_walk hpc id (.room op ot hzero)
      (leaves_cas (Function.update_self ..) hreach hserves)

/-- **Acquiring alone.** -/
theorem acquire_leaves {a : Acquire} (hpc : s.pc t = .acquiring op a)
    (hreach : ¬ TooFar (s.queue.bound op.side) (s.queue.bound op.side).tail)
    (hserves : variant t = .user ∨ CopyServes s.queue (.acquiring op a)) :
    Leaves variant t 2 s := by
  cases a with
  | load => exact (leaves_load (Or.inl hpc) hreach).succ
  | reload => exact (leaves_load (Or.inr hpc) hreach).succ
  | check ot => exact leaves_check hpc hreach hserves
  | cas ot => exact leaves_cas hpc hreach hserves
  | wait ot =>
      by_cases hfar : TooFar (s.queue.bound op.side) ot
      · exact (leaves_wait hpc hreach (Or.inr (Or.inl hfar))).succ
      · exact leaves_walk hpc id (.near op ot hfar)
          (leaves_check (Function.update_self ..) hreach hserves)

/-! ### Committing -/

/-- With a current copy of the head the next attempt succeeds. -/
theorem leaves_loadTail (hpc : s.pc t = .committing op out (.loadTail oh))
    (hhead : (s.queue.bound op.side).head = oh) : Leaves variant t 1 s := by
  refine leaves_walk hpc id (.sampleTail op out oh) ?_
  exact leaves_attempt (Function.update_self ..) (.commit op out oh _ hhead)
    (LeavesWithin.out (by simp [Pc.InLoop]))

theorem leaves_commitCas (hpc : s.pc t = .committing op out (.cas oh tl))
    (hserves : variant t = .user ∨ (s.queue.bound op.side).head = oh) :
    Leaves variant t 2 s := by
  by_cases hhead : (s.queue.bound op.side).head = oh
  · exact leaves_attempt hpc (.commit op out oh tl hhead) (LeavesWithin.out (by simp [Pc.InLoop]))
  · refine leaves_attempt hpc (.commitLost op out oh tl hhead) ?_
    refine leaves_loadTail (Function.update_self ..) ?_
    rw [hserves.resolve_right hhead]
    rfl

/-- **Committing alone.** -/
theorem commit_leaves {c : Commit} (hpc : s.pc t = .committing op out c)
    (hserves : variant t = .user ∨ CopyServes s.queue (.committing op out c)) :
    Leaves variant t 2 s := by
  cases c with
  | load =>
      exact leaves_walk hpc id (.loadHead op out)
        (leaves_loadTail (Function.update_self ..) rfl).succ
  | loadTail oh =>
      exact leaves_walk hpc id (.sampleTail op out oh)
        (leaves_commitCas (Function.update_self ..) hserves)
  | cas oh tl => exact leaves_commitCas hpc hserves

end Solo

/-! ### Livelock -/

/-- A kernel build whose copy does not serve makes a step: its copy still does not serve. -/
theorem stale_step {variant : τ → CasVariant} {t : τ} {s : Sys τ} (hv : variant t = .kernel)
    (hstale : ¬ CopyServes s.queue (s.pc t)) :
    ¬ CopyServes (soloStep variant t s).queue ((soloStep variant t s).pc t) := by
  generalize hpc : s.pc t = pc at hstale
  have hmove : ∀ {pc' e},
      Moves (variant t) s.queue s.buffer pc (.step none) s.queue s.buffer pc' e →
      ¬ CopyServes s.queue pc' →
      ¬ CopyServes (soloStep variant t s).queue ((soloStep variant t s).pc t) := by
    intro pc' e h hnot
    rw [soloStep_eq (by rw [hpc]; exact h)]
    simpa using hnot
  cases pc with
  | acquiring op a =>
      cases a with
      | load => exact absurd trivial hstale
      | reload => exact absurd trivial hstale
      | wait ot =>
          have hnear : ¬ TooFar (s.queue.bound op.side) ot := fun h => hstale (Or.inr (Or.inl h))
          exact hmove (.near op ot hnear) hstale
      | check ot =>
          have hroom : entries op.side s.queue ot ≠ 0#32 := fun h => hstale (Or.inr (Or.inr h))
          exact hmove (.room op ot hroom) hstale
      | cas ot =>
          have hlost : (s.queue.bound op.side).tail ≠ ot := fun h => hstale (Or.inl h)
          refine hmove (.acquireLost op ot hlost) ?_
          rw [hv]
          exact hstale
  | committing op out c =>
      cases c with
      | load => exact absurd trivial hstale
      | loadTail oh => exact hmove (.sampleTail op out oh) hstale
      | cas oh tl =>
          refine hmove (.commitLost op out oh tl hstale) ?_
          rw [hv]
          exact hstale
  | _ => exact absurd trivial hstale

/-- **Livelock.**  A kernel build whose copy does not serve never leaves its loop alone. -/
theorem not_leaves_of_stale {variant : τ → CasVariant} {t : τ} {s : Sys τ}
    (hv : variant t = .kernel) (hstale : ¬ CopyServes s.queue (s.pc t)) (n : ℕ) :
    ¬ Leaves variant t n s := by
  refine not_leavesWithin_of_closed (I := fun s => ¬ CopyServes s.queue (s.pc t)) (fun s hs => ?_)
    (fun s hs => stale_step hv hs) hstale n
  show (s.pc t).InLoop
  generalize s.pc t = pc at hs
  cases pc with
  | acquiring op a => trivial
  | committing op out c => trivial
  | _ => exact absurd trivial hs

/-! ### Runs in which no kernel build is overtaken -/

/-- In the acquire loop of side `r`, with a copy of the tail. -/
def Pc.HoldsTail (r : Side) : Pc → Prop
  | .acquiring op (.wait _) | .acquiring op (.check _) | .acquiring op (.cas _) => op.side = r
  | _ => False

/-- In the commit loop of side `r`, with a copy of the head. -/
def Pc.HoldsHead (r : Side) : Pc → Prop
  | .committing op _ (.loadTail _) | .committing op _ (.cas _ _) => op.side = r
  | _ => False

/-- If the next step of `t` moves a marker, no other kernel build holds a copy of that marker. -/
def Calm (variant : τ → CasVariant) (s : Sys τ) (t : τ) : Prop :=
  match s.pc t with
  | .acquiring op (.cas ot) => (s.queue.bound op.side).tail = ot →
      ∀ u, u ≠ t → variant u = .kernel → ¬ (s.pc u).HoldsTail op.side
  | .committing op _ (.cas oh _) => (s.queue.bound op.side).head = oh →
      ∀ u, u ≠ t → variant u = .kernel → ¬ (s.pc u).HoldsHead op.side
  | _ => True

/-- The queue under any interleaving of calm steps. -/
def calmLts (variant : τ → CasVariant) : Lts (Sys τ) (τ × Act) :=
  (sysLts variant).restrict fun s l => Calm variant s l.1

/-- The local copy is the marker itself. -/
def CopyCurrent (q : Queue) : Pc → Prop
  | .acquiring op (.wait ot) | .acquiring op (.check ot) | .acquiring op (.cas ot) =>
      (q.bound op.side).tail = ot
  | .committing op _ (.loadTail oh) | .committing op _ (.cas oh _) => (q.bound op.side).head = oh
  | _ => True

theorem CopyCurrent.serves {q : Queue} {pc : Pc} (h : CopyCurrent q pc) : CopyServes q pc := by
  cases pc with
  | acquiring op a => cases a <;> first | trivial | exact Or.inl h
  | committing op out c => cases c <;> exact h
  | _ => trivial

/-- A current copy stays current when its marker does not move. -/
theorem CopyCurrent.frame {q q' : Queue} {pc : Pc} (h : CopyCurrent q pc)
    (htail : ∀ r, pc.HoldsTail r → (q'.bound r).tail = (q.bound r).tail)
    (hhead : ∀ r, pc.HoldsHead r → (q'.bound r).head = (q.bound r).head) : CopyCurrent q' pc := by
  cases pc with
  | acquiring op a =>
      cases a with
      | load => trivial
      | reload => trivial
      | wait ot => exact (htail _ rfl).trans h
      | check ot => exact (htail _ rfl).trans h
      | cas ot => exact (htail _ rfl).trans h
  | committing op out c =>
      cases c with
      | load => trivial
      | loadTail oh => exact (hhead _ rfl).trans h
      | cas oh tl => exact (hhead _ rfl).trans h
  | _ => trivial

/-- Every kernel build's copy is current. -/
def KernelCopiesCurrent (variant : τ → CasVariant) (s : Sys τ) : Prop :=
  ∀ u, variant u = .kernel → CopyCurrent s.queue (s.pc u)

/-- Setting one bound leaves the markers of the threads that hold none of it. -/
theorem CopyCurrent.setBound {q : Queue} {pc : Pc} {b : Bound} {r : Side} (h : CopyCurrent q pc)
    (htail : b.tail = (q.bound r).tail ∨ ¬ pc.HoldsTail r)
    (hhead : b.head = (q.bound r).head ∨ ¬ pc.HoldsHead r) : CopyCurrent (q.setBound b r) pc := by
  refine h.frame (fun r' hr => ?_) fun r' hr => ?_
  · by_cases hs : r' = r
    · subst hs
      rw [Queue.bound_setBound]
      exact htail.resolve_right fun hnot => hnot hr
    · rw [Queue.bound_setBound_ne _ _ hs]
  · by_cases hs : r' = r
    · subst hs
      rw [Queue.bound_setBound]
      exact hhead.resolve_right fun hnot => hnot hr
    · rw [Queue.bound_setBound_ne _ _ hs]

/-- A thread's own step keeps its copy current. -/
theorem CopyCurrent.ownStep {v : CasVariant} {q q' : Queue} {buf buf' : RpcMsgBuffer} {pc pc' : Pc}
    {act : Act} {e : Event} (h : CopyCurrent q pc) (hm : Moves v q buf pc act q' buf' pc' e) :
    CopyCurrent q' pc' := by
  cases hm with
  | acquireLost op ot hne => exact absurd h hne
  | commitLost op out oh tl hne => exact absurd h hne
  | body op entry b word hb => cases ‹BodyResult› <;> trivial
  | load op => exact rfl
  | reload op => exact rfl
  | loadHead op out => exact rfl
  | near op ot _ => exact h
  | room op ot _ => exact h
  | sampleTail op out oh => exact h
  | _ => trivial

/-- A calm step keeps the kernel builds' copies current. -/
theorem KernelCopiesCurrent.step {variant : τ → CasVariant} {s s' : Sys τ} {l : τ × Act}
    (hc : KernelCopiesCurrent variant s) (h : (calmLts variant).step s l s') :
    KernelCopiesCurrent variant s' := by
  obtain ⟨t, act⟩ := l
  obtain ⟨hcalm, e, hstep⟩ := h
  obtain ⟨q', buf', pc', rfl, hmove⟩ := sysStep_moves hstep
  intro u hu
  by_cases hut : u = t
  · subst hut
    simp only [Function.update_self]
    exact (hc u hu).ownStep hmove
  · have hother := hc u hu
    simp only [Function.update_of_ne hut]
    generalize hpc : s.pc t = pc at hmove
    simp only [Calm, hpc] at hcalm
    cases hmove with
    | acquire op ot heq => exact hother.setBound (Or.inr (hcalm heq u hut hu)) (Or.inl rfl)
    | commit op out oh tl heq => exact hother.setBound (Or.inl rfl) (Or.inr (hcalm heq u hut hu))
    | body op entry b word hb =>
        have hbound := (bodyStep_frame hb).1
        exact hother.frame (fun r _ => by rw [hbound r]) fun r _ => by rw [hbound r]
    | _ => exact hother

theorem kernelCopiesCurrent_of_reachable {variant : τ → CasVariant} {s : Sys τ}
    (h : (calmLts variant).Reachable s) : KernelCopiesCurrent variant s := by
  refine h.invariant (fun s hs => ?_) fun _ _ _ _ hc hs => hc.step hs
  cases hs
  exact fun _ _ => trivial

/-- **Exactly when a thread alone makes progress.**  In every reachable state a thread in a loop,
left alone, leaves it after at most two compare-and-swaps if it is a user-space build or its copy
serves, and never leaves it otherwise.  In a run in which no marker moves while another kernel build
holds a copy of it, every thread in a loop leaves, in every state reached. -/
theorem solo_progress (variant : τ → CasVariant) :
    (∀ s, (sysLts variant).Reachable s → ∀ t, InLoopInReach s.queue (s.pc t) →
      (Leaves variant t 2 s ↔ variant t = .user ∨ CopyServes s.queue (s.pc t)) ∧
      ((∃ n, Leaves variant t n s) → Leaves variant t 2 s)) ∧
    ∀ s, (calmLts variant).Reachable s → ∀ t, InLoopInReach s.queue (s.pc t) →
      Leaves variant t 2 s := by
  have henough : ∀ (s : Sys τ) t, InLoopInReach s.queue (s.pc t) →
      variant t = .user ∨ CopyServes s.queue (s.pc t) → Leaves variant t 2 s := by
    intro s t hreach hserves
    cases hpc : s.pc t with
    | acquiring op a =>
        rw [hpc] at hreach hserves
        exact acquire_leaves hpc hreach hserves
    | committing op out c =>
        rw [hpc] at hserves
        exact commit_leaves hpc hserves
    | _ =>
        rw [hpc] at hreach
        exact hreach.elim
  have honly : ∀ (s : Sys τ) t n, Leaves variant t n s →
      variant t = .user ∨ CopyServes s.queue (s.pc t) := by
    intro s t n hleaves
    by_contra hnot
    rw [not_or] at hnot
    have hv : variant t = .kernel := by
      cases hk : variant t with
      | user => exact absurd hk hnot.1
      | kernel => rfl
    exact not_leaves_of_stale hv hnot.2 n hleaves
  refine ⟨fun s _ t hreach => ⟨⟨honly s t 2, henough s t hreach⟩, ?_⟩, fun s hs t hreach => ?_⟩
  · rintro ⟨n, hn⟩
    exact henough s t hreach (honly s t n hn)
  · refine henough s t hreach ?_
    cases hv : variant t with
    | user => exact Or.inl rfl
    | kernel => exact Or.inr (kernelCopiesCurrent_of_reachable hs t hv).serves

/-- Both producers have seen room; the second acquires an entry, and the first loses its
compare-and-swap. -/
def lostRaceScript : List (Bool × Act) :=
  [(false, .call (.eventTx fun _ => 0#64)), (true, .call (.eventTx fun _ => 0#64))] ++
    [false, false, false, true, true, true, true, false].map fun t => (t, .step none)

/-- The state after the lost race. -/
def lostRace (v : CasVariant) : World Bool := World.initial.play (fun _ => v) lostRaceScript

/-- `solo_progress` at the lost race: a user-space build gets out, and a kernel build would if it
held the tail. -/
theorem solo_progress_lostRace :
    Leaves (fun _ => .user) false 2 (lostRace .user).sys ∧
      (Leaves (fun _ => .kernel) false 2 (lostRace .kernel).sys ↔
        CopyServes (lostRace .kernel).sys.queue ((lostRace .kernel).sys.pc false)) := by
  have hreach : ∀ v, (sysLts fun _ => v).Reachable (lostRace v).sys := fun v =>
    reachable_sys (World.reachable_play (.init rfl) lostRaceScript)
  have hinReach : ∀ v, InLoopInReach (lostRace v).sys.queue ((lostRace v).sys.pc false) := by
    intro v
    cases v
    · show ¬ TooFar (lostRace .user).sys.queue.prod (lostRace .user).sys.queue.prod.tail
      decide
    · show ¬ TooFar (lostRace .kernel).sys.queue.prod (lostRace .kernel).sys.queue.prod.tail
      decide
  refine ⟨?_, ?_⟩
  · exact ((solo_progress fun _ => .user).1 _ (hreach .user) false (hinReach .user)).1.mpr
      (Or.inl rfl)
  · have h := ((solo_progress fun _ => .kernel).1 _ (hreach .kernel) false (hinReach .kernel)).1
    simpa using h

/-- **The kernel build can be stuck.**  A lost race leaves a kernel producer, one entry behind and
with room in the queue, in a loop it never leaves on its own. -/
theorem stale_copy_livelock :
    ∃ s : Sys Bool, (sysLts fun _ => .kernel).Reachable s ∧ InLoopInReach s.queue (s.pc false) ∧
      ∀ n, ¬ Leaves (fun _ => .kernel) false n s := by
  have hpc : (lostRace .kernel).sys.pc false
      = .acquiring (.eventTx fun _ => 0#64) (.wait .zero) := by
    decide
  refine ⟨(lostRace .kernel).sys, reachable_sys (World.reachable_play (.init rfl) lostRaceScript),
    ?_, not_leaves_of_stale rfl ?_⟩
  · rw [hpc]
    show ¬ TooFar (lostRace .kernel).sys.queue.prod (lostRace .kernel).sys.queue.prod.tail
    decide
  · rw [hpc]
    show ¬ ((lostRace .kernel).sys.queue.prod.tail = .zero ∨
      TooFar (lostRace .kernel).sys.queue.prod .zero ∨
      entries .prod (lostRace .kernel).sys.queue .zero = 0#32)
    decide

end TiiSel4Vm.RpcQueue
