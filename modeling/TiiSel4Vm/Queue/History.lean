import TiiSel4Vm.Lib.Transition
import TiiSel4Vm.Queue.Machine

/-!
# Any number of threads on one queue, and the history of the queue

`Sys` is the shared memory and the local state of every thread; `sysStep` lets one of them make one
atomic step.  `Hist` is an observer: it numbers the acquisitions of each side from zero without ever
wrapping, and remembers when each thread loaded the marker copies it holds.  `worldLts` runs both
together, restricted by `Fresh`: fewer than `2 ^ 31` acquisitions (for a copy of the tail) or
commits (for a copy of the head) of that side happened between a thread's load of a marker and the
compare-and-swap or failing return that uses it.  An operation acquires at most once and commits at
most once, so this is no stronger than fewer than `2 ^ 31` operations.

* `Moves` / `threadStep_moves` — everything one step of a thread can do, case by case;
* `fresh_step` — the history never stops the code.
-/

namespace TiiSel4Vm.RpcQueue

open TiiSel4Vm.Transition

variable {τ : Type} [DecidableEq τ]

/-! ### The system -/

/-- One queue with its message buffer, and the threads that use it. -/
structure Sys (τ : Type) where
  queue : Queue
  buffer : RpcMsgBuffer
  pc : τ → Pc

/-- After `rpcmsg_queue_init` and `rpcmsg_buffer_init`, with no operation in progress. -/
def Sys.initial : Sys τ := ⟨rpcmsgQueueInit, rpcmsgBufferInit, fun _ => .idle⟩

/-- Thread `t` makes one step; `variant t` is the `atomic_compare_and_swap` it was compiled with. -/
def sysStep (variant : τ → CasVariant) (s : Sys τ) (t : τ) (act : Act) : Option (Sys τ × Event) :=
  (threadStep (variant t) s.queue s.buffer (s.pc t) act).map fun r =>
    (⟨r.1, r.2.1, Function.update s.pc t r.2.2.1⟩, r.2.2.2)

/-- The queue alone, under any interleaving. -/
def sysLts (variant : τ → CasVariant) : Lts (Sys τ) (τ × Act) where
  init s := s = .initial
  step s l s' := ∃ e, sysStep variant s l.1 l.2 = some (s', e)

/-! ### The history -/

/-- What happened on the queue so far. -/
structure Hist (τ : Type) where
  /-- who acquired each position of a side, in order -/
  acquirers : Side → List (τ × Op)
  /-- the positions committed on a side, in the order of the commits -/
  commits : Side → List ℕ
  /-- the head position of a side, never wrapping -/
  published : Side → ℕ
  /-- position and result of every dequeue that returned 0 -/
  received : List (ℕ × Out)
  /-- the position each thread acquired last -/
  place : τ → ℕ
  /-- the side's acquisitions (copy of the tail) or commits (copy of the head) when the thread
  loaded the copy it would swap against -/
  stamp : τ → ℕ
  /-- the side's acquisitions when the thread loaded the tail in `rpcmsg_commit_update` -/
  sample : τ → ℕ

namespace Hist

/-- Nothing has happened yet. -/
def initial : Hist τ :=
  ⟨fun _ => [], fun _ => [], fun _ => 0, [], fun _ => 0, fun _ => 0, fun _ => 0⟩

/-- How many entries of a side were acquired. -/
def acquired (h : Hist τ) (s : Side) : ℕ := (h.acquirers s).length

/-- How many entries of a side were committed. -/
def committed (h : Hist τ) (s : Side) : ℕ := (h.commits s).length

/-- The history after thread `t` caused event `e`. -/
def record (h : Hist τ) (t : τ) : Event → Hist τ
  | .silent => h
  | .failed _ => h
  | .loadedTail s => { h with stamp := Function.update h.stamp t (h.acquired s) }
  | .loadedHead s => { h with stamp := Function.update h.stamp t (h.committed s) }
  | .sampledTail s => { h with sample := Function.update h.sample t (h.acquired s) }
  | .acquired op =>
      { h with
        acquirers := Function.update h.acquirers op.side (h.acquirers op.side ++ [(t, op)])
        place := Function.update h.place t (h.acquired op.side) }
  | .committed op publish out =>
      { h with
        commits := Function.update h.commits op.side (h.commits op.side ++ [h.place t])
        published :=
          if publish then Function.update h.published op.side (h.committed op.side + 1)
          else h.published
        received :=
          if op.side = .cons then h.received ++ [(h.place t, out)] else h.received }

end Hist

/-- A queue and its history. -/
structure World (τ : Type) where
  sys : Sys τ
  hist : Hist τ

def World.initial : World τ := ⟨.initial, .initial⟩

/-- The bound on how many operations a held marker copy may be old. -/
abbrev freshBound : ℕ := 2 ^ 31

/-- The next step of thread `t`, if it is a compare-and-swap or a failing return, uses a marker copy
that fewer than `2 ^ 31` operations ago was current. -/
def Fresh (w : World τ) (t : τ) : Prop :=
  match w.sys.pc t with
  | .acquiring op (.check ot) =>
      entries op.side w.sys.queue ot = 0#32 → w.hist.acquired op.side - w.hist.stamp t < freshBound
  | .acquiring op (.cas _) => w.hist.acquired op.side - w.hist.stamp t < freshBound
  | .committing op _ (.cas _ _) => w.hist.committed op.side - w.hist.stamp t < freshBound
  | _ => True

/-- The queue with its history, under any interleaving with fresh marker copies. -/
def worldLts (variant : τ → CasVariant) : Lts (World τ) (τ × Act) where
  init w := w = .initial
  step w l w' :=
    Fresh w l.1 ∧ ∃ s' e, sysStep variant w.sys l.1 l.2 = some (s', e) ∧
      w' = ⟨s', w.hist.record l.1 e⟩

/-- **The history only observes.**  Whatever the code can do with a fresh copy, it can do with its
history recorded. -/
theorem fresh_step {variant : τ → CasVariant} {w : World τ} {t : τ} {act : Act} {s' : Sys τ}
    {e : Event} (hf : Fresh w t) (hs : sysStep variant w.sys t act = some (s', e)) :
    (worldLts variant).step w (t, act) ⟨s', w.hist.record t e⟩ :=
  ⟨hf, s', e, hs, rfl⟩

instance (w : World τ) (t : τ) : Decidable (Fresh w t) := by
  unfold Fresh
  split <;> infer_instance

/-- Run one labelled step; a step that is not enabled is skipped. -/
def World.exec (variant : τ → CasVariant) (w : World τ) (l : τ × Act) : World τ :=
  if Fresh w l.1 then
    match sysStep variant w.sys l.1 l.2 with
    | some r => ⟨r.1, w.hist.record l.1 r.2⟩
    | none => w
  else w

/-- Run a script of labelled steps. -/
def World.play (variant : τ → CasVariant) (w : World τ) (ls : List (τ × Act)) : World τ :=
  ls.foldl (World.exec variant) w

/-- The label is enabled. -/
def World.Enabled (variant : τ → CasVariant) (w : World τ) (l : τ × Act) : Prop :=
  Fresh w l.1 ∧ (sysStep variant w.sys l.1 l.2).isSome = true

instance (variant : τ → CasVariant) (w : World τ) (l : τ × Act) :
    Decidable (World.Enabled variant w l) := by
  unfold World.Enabled
  infer_instance

theorem World.exec_step {variant : τ → CasVariant} {w : World τ} {l : τ × Act}
    (h : World.Enabled variant w l) : (worldLts variant).step w l (w.exec variant l) := by
  obtain ⟨hf, hs⟩ := h
  obtain ⟨r, hr⟩ := Option.isSome_iff_exists.mp hs
  refine ⟨hf, r.1, r.2, hr, ?_⟩
  simp only [World.exec, if_pos hf, hr]

/-- `exec` makes the labelled step or stays. -/
theorem World.exec_cases (variant : τ → CasVariant) (w : World τ) (l : τ × Act) :
    (worldLts variant).step w l (w.exec variant l) ∨ w.exec variant l = w := by
  by_cases he : World.Enabled variant w l
  · exact Or.inl (World.exec_step he)
  · right
    unfold World.exec
    split
    · rename_i hf
      have hnone : sysStep variant w.sys l.1 l.2 = none := by
        simpa [World.Enabled, hf] using he
      rw [hnone]
    · rfl

theorem World.reachable_exec {variant : τ → CasVariant} {w : World τ}
    (h : (worldLts variant).Reachable w) (l : τ × Act) :
    (worldLts variant).Reachable (w.exec variant l) := by
  rcases World.exec_cases variant w l with hs | hs
  · exact h.step hs
  · rw [hs]
    exact h

theorem World.reachable_play {variant : τ → CasVariant} {w : World τ}
    (h : (worldLts variant).Reachable w) (ls : List (τ × Act)) :
    (worldLts variant).Reachable (w.play variant ls) := by
  induction ls generalizing w with
  | nil => exact h
  | cons l ls ih => exact ih (World.reachable_exec h l)

/-- Every label of the script is enabled when its turn comes. -/
def World.Playable (variant : τ → CasVariant) : World τ → List (τ × Act) → Prop
  | _, [] => True
  | w, l :: ls => w.Enabled variant l ∧ Playable variant (w.exec variant l) ls

instance (variant : τ → CasVariant) (ls : List (τ × Act)) (w : World τ) :
    Decidable (World.Playable variant w ls) := by
  induction ls generalizing w with
  | nil => exact inferInstanceAs (Decidable True)
  | cons l ls ih =>
      have := ih (w.exec variant l)
      exact inferInstanceAs (Decidable (_ ∧ _))

/-- A playable script is a run. -/
theorem World.run_play {variant : τ → CasVariant} {w : World τ} {ls : List (τ × Act)}
    (h : w.Playable variant ls) : (worldLts variant).Run w ls (w.play variant ls) := by
  induction ls generalizing w with
  | nil => exact .nil w
  | cons l ls ih => exact (ih h.2).cons (World.exec_step h.1)

/-- Every state of the recorded system is a state of the plain one. -/
theorem reachable_sys {variant : τ → CasVariant} {w : World τ}
    (h : (worldLts variant).Reachable w) : (sysLts variant).Reachable w.sys := by
  induction h with
  | init hw => subst hw; exact .init rfl
  | step _ hs ih =>
      obtain ⟨_, s', e, hstep, rfl⟩ := hs
      exact ih.step ⟨e, hstep⟩

/-! ### Everything a step can do -/

/-- The copy of a marker a failed compare-and-swap leaves: the one found (builtin) or the stale one
(kernel). -/
def casCopy (v : CasVariant) (found stale : Marker) : Marker :=
  match v with
  | .user => found
  | .kernel => stale

/-- `Moves v q buf pc act q' buf' pc' e`: in memory `q`, `buf`, a thread at `pc` doing `act` leaves
memory `q'`, `buf'` and is at `pc'`; `e` is reported. -/
inductive Moves (v : CasVariant) (q : Queue) (buf : RpcMsgBuffer) :
    Pc → Act → Queue → RpcMsgBuffer → Pc → Event → Prop
  | call (op : Op) : Moves v q buf .idle (.call op) q buf (.acquiring op .load) .silent
  | load (op : Op) :
      Moves v q buf (.acquiring op .load) (.step none) q buf
        (.acquiring op (.wait (q.bound op.side).tail)) (.loadedTail op.side)
  | far (op : Op) (ot : Marker) (h : TooFar (q.bound op.side) ot) :
      Moves v q buf (.acquiring op (.wait ot)) (.step none) q buf (.acquiring op .reload) .silent
  | near (op : Op) (ot : Marker) (h : ¬ TooFar (q.bound op.side) ot) :
      Moves v q buf (.acquiring op (.wait ot)) (.step none) q buf (.acquiring op (.check ot))
        .silent
  | reload (op : Op) :
      Moves v q buf (.acquiring op .reload) (.step none) q buf
        (.acquiring op (.wait (q.bound op.side).tail)) (.loadedTail op.side)
  | full (op : Op) (ot : Marker) (h : entries op.side q ot = 0#32) :
      Moves v q buf (.acquiring op (.check ot)) (.step none) q buf (.returned op (-1) .nothing)
        (.failed op)
  | room (op : Op) (ot : Marker) (h : entries op.side q ot ≠ 0#32) :
      Moves v q buf (.acquiring op (.check ot)) (.step none) q buf (.acquiring op (.cas ot)) .silent
  | acquire (op : Op) (ot : Marker) (h : (q.bound op.side).tail = ot) :
      Moves v q buf (.acquiring op (.cas ot)) (.step none)
        (q.setBound { q.bound op.side with tail := ot.next } op.side) buf
        (.body op ot.pos op.body) (.acquired op)
  | acquireLost (op : Op) (ot : Marker) (h : (q.bound op.side).tail ≠ ot) :
      Moves v q buf (.acquiring op (.cas ot)) (.step none) q buf
        (.acquiring op (.wait (casCopy v (q.bound op.side).tail ot)))
        (casEvent v (.loadedTail op.side))
  | body (op : Op) (entry : BitVec 32) (b : Body) (word : Option (Fin 4)) {q' : Queue}
      {buf' : RpcMsgBuffer} {r : BodyResult}
      (h : bodyStep op (ringIndex entry) q buf b word = some (q', buf', r)) :
      Moves v q buf (.body op entry b) (.step word) q' buf' (r.pc op entry) .silent
  | loadHead (op : Op) (out : Out) :
      Moves v q buf (.committing op out .load) (.step none) q buf
        (.committing op out (.loadTail (q.bound op.side).head)) (.loadedHead op.side)
  | sampleTail (op : Op) (out : Out) (oh : Marker) :
      Moves v q buf (.committing op out (.loadTail oh)) (.step none) q buf
        (.committing op out (.cas oh (q.bound op.side).tail)) (.sampledTail op.side)
  | commit (op : Op) (out : Out) (oh t : Marker) (h : (q.bound op.side).head = oh) :
      Moves v q buf (.committing op out (.cas oh t)) (.step none)
        (q.setBound { q.bound op.side with head := newHead oh t } op.side) buf
        (.returned op 0 out) (.committed op (decide (LastCommitter oh t)) out)
  | commitLost (op : Op) (out : Out) (oh t : Marker) (h : (q.bound op.side).head ≠ oh) :
      Moves v q buf (.committing op out (.cas oh t)) (.step none) q buf
        (.committing op out (.loadTail (casCopy v (q.bound op.side).head oh)))
        (casEvent v (.loadedHead op.side))
  | leave (op : Op) (ret : ℤ) (out : Out) :
      Moves v q buf (.returned op ret out) .leave q buf .idle .silent

theorem acquire_moves {v : CasVariant} {q q' : Queue} {buf buf' : RpcMsgBuffer} {op : Op}
    {a : Acquire} {pc' : Pc} {e : Event}
    (h : threadStep v q buf (.acquiring op a) (.step none) = some (q', buf', pc', e)) :
    Moves v q buf (.acquiring op a) (.step none) q' buf' pc' e := by
  simp only [threadStep, Option.some.injEq, Prod.mk.injEq] at h
  obtain ⟨rfl, rfl, rfl, rfl⟩ := h
  cases a with
  | load => exact .load op
  | reload => exact .reload op
  | wait ot =>
      by_cases hf : TooFar (q.bound op.side) ot
      · simpa only [acquireStep, hf, if_true, acquireEvent] using Moves.far op ot hf
      · simpa only [acquireStep, hf, if_false, acquireEvent] using Moves.near op ot hf
  | check ot =>
      by_cases he : entries op.side q ot = 0#32
      · simpa only [acquireStep, he, if_true, acquireEvent] using Moves.full op ot he
      · simpa only [acquireStep, he, if_false, acquireEvent] using Moves.room op ot he
  | cas ot =>
      by_cases ht : (q.bound op.side).tail = ot
      · simpa only [acquireStep, atomicCompareAndSwap, ht, if_true, acquireEvent]
          using Moves.acquire op ot ht
      · have hlost : Moves v q buf _ _ _ _ _ _ := Moves.acquireLost op ot ht
        cases v <;>
          simpa [acquireStep, atomicCompareAndSwap, ht, acquireEvent, casCopy] using hlost

theorem commit_moves {v : CasVariant} {q q' : Queue} {buf buf' : RpcMsgBuffer} {op : Op} {out : Out}
    {c : Commit} {pc' : Pc} {e : Event}
    (h : threadStep v q buf (.committing op out c) (.step none) = some (q', buf', pc', e)) :
    Moves v q buf (.committing op out c) (.step none) q' buf' pc' e := by
  simp only [threadStep, Option.some.injEq, Prod.mk.injEq] at h
  obtain ⟨rfl, rfl, rfl, rfl⟩ := h
  cases c with
  | load => simpa only [commitStep, Queue.setBound_bound, commitEvent] using Moves.loadHead op out
  | loadTail oh =>
      simpa only [commitStep, Queue.setBound_bound, commitEvent] using Moves.sampleTail op out oh
  | cas oh t =>
      by_cases hh : (q.bound op.side).head = oh
      · simpa only [commitStep, atomicCompareAndSwap, hh, if_true, commitEvent]
          using Moves.commit op out oh t hh
      · have hlost : Moves v q buf _ _ _ _ _ _ := Moves.commitLost op out oh t hh
        cases v <;>
          simpa [commitStep, atomicCompareAndSwap, hh, commitEvent, casCopy] using hlost

/-- **Step inversion.** -/
theorem threadStep_moves {v : CasVariant} {q q' : Queue} {buf buf' : RpcMsgBuffer} {pc pc' : Pc}
    {act : Act} {e : Event} (h : threadStep v q buf pc act = some (q', buf', pc', e)) :
    Moves v q buf pc act q' buf' pc' e := by
  cases pc with
  | idle =>
      cases act with
      | call op =>
          simp only [threadStep, Option.some.injEq, Prod.mk.injEq] at h
          obtain ⟨rfl, rfl, rfl, rfl⟩ := h
          exact .call op
      | step word => simp [threadStep] at h
      | leave => simp [threadStep] at h
  | acquiring op a =>
      cases act with
      | step word =>
          cases word with
          | none => exact acquire_moves h
          | some i => simp [threadStep] at h
      | call op' => simp [threadStep] at h
      | leave => simp [threadStep] at h
  | body op entry b =>
      cases act with
      | step word =>
          simp only [threadStep, Option.map_eq_some_iff, Prod.exists, Prod.mk.injEq] at h
          obtain ⟨q₁, buf₁, r, hb, rfl, rfl, rfl, rfl⟩ := h
          exact .body op entry b word hb
      | call op' => simp [threadStep] at h
      | leave => simp [threadStep] at h
  | committing op out c =>
      cases act with
      | step word =>
          cases word with
          | none => exact commit_moves h
          | some i => simp [threadStep] at h
      | call op' => simp [threadStep] at h
      | leave => simp [threadStep] at h
  | returned op ret out =>
      cases act with
      | leave =>
          simp only [threadStep, Option.some.injEq, Prod.mk.injEq] at h
          obtain ⟨rfl, rfl, rfl, rfl⟩ := h
          exact .leave op ret out
      | call op' => simp [threadStep] at h
      | step word => simp [threadStep] at h
  | aborted => cases act <;> simp [threadStep] at h

/-- The converse: every move is a step. -/
theorem Moves.threadStep {v : CasVariant} {q q' : Queue} {buf buf' : RpcMsgBuffer} {pc pc' : Pc}
    {act : Act} {e : Event} (h : Moves v q buf pc act q' buf' pc' e) :
    threadStep v q buf pc act = some (q', buf', pc', e) := by
  cases h with
  | body op entry b word hb => simp [RpcQueue.threadStep, hb]
  | acquireLost op ot hne =>
      cases v <;>
        simp [RpcQueue.threadStep, acquireStep, atomicCompareAndSwap, hne, acquireEvent, casCopy]
  | commitLost op out oh tl hne =>
      cases v <;>
        simp [RpcQueue.threadStep, commitStep, atomicCompareAndSwap, hne, commitEvent, casCopy]
  | _ =>
      simp_all [RpcQueue.threadStep, acquireStep, commitStep, atomicCompareAndSwap, acquireEvent,
        commitEvent]

/-- Step inversion for the system. -/
theorem sysStep_moves {variant : τ → CasVariant} {s s' : Sys τ} {t : τ} {act : Act} {e : Event}
    (h : sysStep variant s t act = some (s', e)) :
    ∃ q' buf' pc', s' = ⟨q', buf', Function.update s.pc t pc'⟩ ∧
      Moves (variant t) s.queue s.buffer (s.pc t) act q' buf' pc' e := by
  simp only [sysStep, Option.map_eq_some_iff, Prod.exists, Prod.mk.injEq] at h
  obtain ⟨q', buf', pc', e', hstep, rfl, rfl⟩ := h
  exact ⟨q', buf', pc', rfl, threadStep_moves hstep⟩

end TiiSel4Vm.RpcQueue
