import Mathlib.Data.Fintype.Card
import Mathlib.Data.Finset.Card
import Mathlib.Tactic.Common

/-!
# Labelled transition systems and families of threads

A system is a set of initial states and a labelled step relation.  The two induction principles
below are the only inductions over runs that the protocol proofs need: an invariant of one step is
an invariant of every reachable state, and a property that fails at the start of a run and holds at
its end is established by one particular step of it.

The rest is about one party of a system: `LeavesWithin` bounds the attempts a loop makes when it is
run alone, and `countThreads` counts the threads of a finite family whose local state has a given
property, when one thread moves.
-/

namespace TiiSel4Vm.Transition

universe u v

/-- A labelled transition system. -/
structure Lts (σ : Type u) (ℓ : Type v) where
  init : σ → Prop
  step : σ → ℓ → σ → Prop

namespace Lts

variable {σ : Type u} {ℓ : Type v} {M : Lts σ ℓ}

/-- The states some run from an initial state ends in. -/
inductive Reachable (M : Lts σ ℓ) : σ → Prop
  | init {s : σ} : M.init s → Reachable M s
  | step {s t : σ} {l : ℓ} : Reachable M s → M.step s l t → Reachable M t

/-- `Run M s ls t`: the steps labelled `ls`, in order, lead from `s` to `t`. -/
inductive Run (M : Lts σ ℓ) : σ → List ℓ → σ → Prop
  | nil (s : σ) : Run M s [] s
  | snoc {s t u : σ} {ls : List ℓ} {l : ℓ} : Run M s ls t → M.step t l u → Run M s (ls ++ [l]) u

/-- An initial property kept by every step from a reachable state holds in every reachable state. -/
theorem Reachable.invariant {I : σ → Prop} {s : σ} (h : M.Reachable s)
    (hinit : ∀ s, M.init s → I s)
    (hstep : ∀ s l t, M.Reachable s → I s → M.step s l t → I t) : I s := by
  induction h with
  | init hs => exact hinit _ hs
  | step hr hs ih => exact hstep _ _ _ hr ih hs

theorem Reachable.run {s t : σ} {ls : List ℓ} (h : M.Reachable s) (hr : M.Run s ls t) :
    M.Reachable t := by
  induction hr with
  | nil => exact h
  | snoc _ hs ih => exact ih.step hs

theorem Run.single {s t : σ} {l : ℓ} (h : M.step s l t) : M.Run s [l] t :=
  Run.snoc (Run.nil s) h

theorem Run.append {s t u : σ} {ls ms : List ℓ} (h : M.Run s ls t) (h' : M.Run t ms u) :
    M.Run s (ls ++ ms) u := by
  induction h' with
  | nil => simpa using h
  | snoc _ hs ih =>
      rw [← List.append_assoc]
      exact ih.snoc hs

theorem Run.cons {s t u : σ} {l : ℓ} {ls : List ℓ} (h : M.step s l t) (h' : M.Run t ls u) :
    M.Run s (l :: ls) u :=
  (Run.single h).append h'

/-- What every step keeps, a run keeps. -/
theorem Run.invariant {I : σ → Prop} {s t : σ} {ls : List ℓ} (h : M.Run s ls t)
    (hstep : ∀ s l t, I s → M.step s l t → I t) (hs : I s) : I t := by
  induction h with
  | nil => exact hs
  | snoc _ hlast ih => exact hstep _ _ _ ih hlast

/-- Related states stay related when every step of the one is matched by the other. -/
theorem Run.simulate {σ' : Type*} {N : Lts σ' ℓ} {R : σ → σ' → Prop}
    (hstep : ∀ s t l s', R s t → M.step s l s' → ∃ t', N.step t l t' ∧ R s' t')
    {s s' : σ} {t : σ'} {ls : List ℓ} (h : M.Run s ls s') (hR : R s t) :
    ∃ t', N.Run t ls t' ∧ R s' t' := by
  induction h with
  | nil => exact ⟨t, .nil t, hR⟩
  | snoc _ hs ih =>
      obtain ⟨t₁, hrun, hR₁⟩ := ih
      obtain ⟨t₂, hs₂, hR₂⟩ := hstep _ _ _ _ hR₁ hs
      exact ⟨t₂, hrun.snoc hs₂, hR₂⟩

/-- **The establishing step.**  A property that is false at the start of a run and true at its end
is made true by one of its steps. -/
theorem Run.establishes {P : σ → Prop} {s t : σ} {ls : List ℓ} (h : M.Run s ls t)
    (hs : ¬ P s) (ht : P t) :
    ∃ pre l post u v, ls = pre ++ l :: post ∧ M.Run s pre u ∧ M.step u l v ∧ M.Run v post t ∧
      ¬ P u ∧ P v := by
  induction h with
  | nil => exact absurd ht hs
  | @snoc u t ls l hrun hstep ih =>
      by_cases hu : P u
      · obtain ⟨pre, k, post, a, b, rfl, hpre, hk, hpost, ha, hb⟩ := ih hu
        exact ⟨pre, k, post ++ [l], a, b, by simp, hpre, hk, hpost.snoc hstep, ha, hb⟩
      · exact ⟨ls, l, [], u, t, rfl, hrun, hstep, Run.nil t, hu, ht⟩

/-! ### Restricted systems and step functions -/

/-- The same system when only steps that meet the condition are made. -/
def restrict (M : Lts σ ℓ) (G : σ → ℓ → Prop) : Lts σ ℓ where
  init := M.init
  step s l t := G s l ∧ M.step s l t

theorem Reachable.of_restrict {G : σ → ℓ → Prop} {s : σ} (h : (M.restrict G).Reachable s) :
    M.Reachable s := by
  induction h with
  | init hs => exact .init hs
  | step _ hs ih => exact ih.step hs.2

theorem Run.of_restrict {G : σ → ℓ → Prop} {s t : σ} {ls : List ℓ}
    (h : (M.restrict G).Run s ls t) : M.Run s ls t := by
  induction h with
  | nil => exact .nil _
  | snoc _ hs ih => exact ih.snoc hs.2

/-- The system of a partial step function. -/
def ofFun (init : σ → Prop) (f : σ → ℓ → Option σ) : Lts σ ℓ where
  init := init
  step s l t := f s l = some t

end Lts

/-- Run a script; a step that is not enabled is skipped. -/
def play {σ : Type u} {ℓ : Type v} (f : σ → ℓ → Option σ) (s : σ) (ls : List ℓ) : σ :=
  ls.foldl (fun s l => (f s l).getD s) s

/-- The step function that makes only the steps that meet the condition. -/
def guarded {σ : Type u} {ℓ : Type v} (G : σ → ℓ → Prop) [∀ s l, Decidable (G s l)]
    (f : σ → ℓ → Option σ) (s : σ) (l : ℓ) : Option σ :=
  if G s l then f s l else none

namespace Lts

variable {σ : Type u} {ℓ : Type v}

/-- A system whose steps include those of `f` reaches what `f` plays. -/
theorem Reachable.play {M : Lts σ ℓ} {f : σ → ℓ → Option σ}
    (hf : ∀ s l t, f s l = some t → M.step s l t) {s : σ} (h : M.Reachable s) (ls : List ℓ) :
    M.Reachable (play f s ls) := by
  induction ls generalizing s with
  | nil => exact h
  | cons l ls ih =>
      show M.Reachable (Transition.play f ((f s l).getD s) ls)
      cases hstep : f s l with
      | none => exact ih h
      | some t => exact ih (h.step (hf s l t hstep))

end Lts

theorem guarded_step {σ : Type u} {ℓ : Type v} {G : σ → ℓ → Prop} [∀ s l, Decidable (G s l)]
    {f : σ → ℓ → Option σ} {s t : σ} {l : ℓ} (h : guarded G f s l = some t) :
    G s l ∧ f s l = some t := by
  unfold guarded at h
  split at h
  · rename_i hG
    exact ⟨hG, h⟩
  · cases h

/-- Run a script all of whose steps are enabled. -/
def runAll {σ : Type u} {ℓ : Type v} (f : σ → ℓ → Option σ) : σ → List ℓ → Option σ
  | s, [] => some s
  | s, l :: ls => (f s l).bind fun t => runAll f t ls

theorem runAll_append {σ : Type u} {ℓ : Type v} (f : σ → ℓ → Option σ) (s : σ)
    (ls ms : List ℓ) : runAll f s (ls ++ ms) = (runAll f s ls).bind fun t => runAll f t ms := by
  induction ls generalizing s with
  | nil => rfl
  | cons l ls ih =>
      show (f s l).bind (fun t => runAll f t (ls ++ ms)) = _
      simp only [ih]
      exact (Option.bind_assoc _ _ _).symm

/-- The runs of a step function are its scripts. -/
theorem runAll_of_run {σ : Type u} {ℓ : Type v} {init : σ → Prop} {f : σ → ℓ → Option σ}
    {s t : σ} {ls : List ℓ} (h : (Lts.ofFun init f).Run s ls t) :
    runAll f s ls = some t := by
  induction h with
  | nil => rfl
  | @snoc u v ls l hrun hs ih =>
      have hstep : f u l = some v := hs
      rw [runAll_append, ih, Option.bind_some, runAll, hstep]
      rfl

/-- A system whose steps include those of `f` has the run. -/
theorem Lts.Run.of_runAll {σ : Type u} {ℓ : Type v} {M : Lts σ ℓ} {f : σ → ℓ → Option σ}
    (hf : ∀ s l t, f s l = some t → M.step s l t) {s t : σ} {ls : List ℓ}
    (h : runAll f s ls = some t) : M.Run s ls t := by
  induction ls generalizing s with
  | nil =>
      cases h
      exact .nil _
  | cons l ls ih =>
      obtain ⟨u, hu, hrest⟩ := Option.bind_eq_some_iff.mp h
      exact (ih hrest).cons (hf s l u hu)

/-- What the steps of a run put out, in order. -/
def outputs {σ : Type u} {ℓ : Type v} {ο : Type*} (f : σ → ℓ → Option σ) (out : σ → ℓ → Option ο) :
    σ → List ℓ → List ο
  | _, [] => []
  | s, l :: ls =>
      (out s l).toList ++
        match f s l with
        | some t => outputs f out t ls
        | none => []

theorem outputs_append {σ : Type u} {ℓ : Type v} {ο : Type*} {M : Lts σ ℓ} {f : σ → ℓ → Option σ}
    (hf : ∀ s l t, M.step s l t → f s l = some t) (out : σ → ℓ → Option ο) {s t : σ} {ls : List ℓ}
    (h : M.Run s ls t) (more : List ℓ) :
    outputs f out s (ls ++ more) = outputs f out s ls ++ outputs f out t more := by
  induction h generalizing more with
  | nil => rfl
  | @snoc t u ls l hrun hs ih =>
      rw [List.append_assoc, List.singleton_append, ih, ih [l], List.append_assoc]
      simp [outputs, hf t l u hs]

/-- One more step. -/
theorem outputs_snoc {σ : Type u} {ℓ : Type v} {ο : Type*} {M : Lts σ ℓ} {f : σ → ℓ → Option σ}
    (hf : ∀ s l t, M.step s l t → f s l = some t) (out : σ → ℓ → Option ο) {s t u : σ}
    {ls : List ℓ} {l : ℓ} (h : M.Run s ls t) (hs : M.step t l u) :
    outputs f out s (ls ++ [l]) = outputs f out s ls ++ (out t l).toList := by
  rw [outputs_append hf out h]
  simp [outputs, hf t l u hs]

/-! ### A loop run alone -/

section Loop

variable {σ : Type u}

/-- Iterating `step` from the state leaves the loop after finitely many steps, at most `n` of which
are attempts. -/
inductive LeavesWithin (step : σ → σ) (inLoop attempt : σ → Prop) : ℕ → σ → Prop
  | out {n : ℕ} {s : σ} : ¬ inLoop s → LeavesWithin step inLoop attempt n s
  | walk {n : ℕ} {s : σ} : ¬ attempt s → LeavesWithin step inLoop attempt n (step s) →
      LeavesWithin step inLoop attempt n s
  | attempt {n : ℕ} {s : σ} : LeavesWithin step inLoop attempt n (step s) →
      LeavesWithin step inLoop attempt (n + 1) s

variable {step : σ → σ} {inLoop attempt : σ → Prop}

theorem LeavesWithin.succ {n : ℕ} {s : σ} (h : LeavesWithin step inLoop attempt n s) :
    LeavesWithin step inLoop attempt (n + 1) s := by
  induction h with
  | out hs => exact .out hs
  | walk hs _ ih => exact .walk hs ih
  | attempt _ ih => exact .attempt ih

/-- A set of loop states that is closed under the step is never left, whatever the budget. -/
theorem not_leavesWithin_of_closed {I : σ → Prop} (hloop : ∀ s, I s → inLoop s)
    (hstep : ∀ s, I s → I (step s)) {s : σ} (hs : I s) (n : ℕ) :
    ¬ LeavesWithin step inLoop attempt n s := by
  intro h
  induction h with
  | out hout => exact hout (hloop _ hs)
  | walk _ _ ih => exact ih (hstep _ hs)
  | attempt _ ih => exact ih (hstep _ hs)

end Loop

/-! ### Counting the threads in a given local state -/

section Threads

variable {τ : Type u} {β : Type v} [Fintype τ]

/-- The number of threads whose local state has the property `p`. -/
def countThreads (p : β → Prop) [DecidablePred p] (f : τ → β) : ℕ :=
  (Finset.univ.filter fun t => p (f t)).card

variable {p : β → Prop} [DecidablePred p] {f : τ → β} {a : τ} {b : β}

theorem countThreads_eq_zero_iff : countThreads p f = 0 ↔ ∀ t, ¬ p (f t) := by
  simp [countThreads, Finset.filter_eq_empty_iff]

theorem countThreads_pos (h : p (f a)) : 0 < countThreads p f :=
  Finset.card_pos.mpr ⟨a, by simpa using h⟩

/-- When exactly one thread has the property, it is the one at hand. -/
theorem eq_of_countThreads_eq_one (h : countThreads p f = 1) (ha : p (f a)) {c : τ}
    (hc : p (f c)) : c = a :=
  Finset.card_le_one.mp (le_of_eq h) c (by simpa using hc) a (by simpa using ha)

variable [DecidableEq τ]

/-- A move that does not change whether the thread has the property leaves the count. -/
theorem countThreads_update_same (h : p (f a) ↔ p b) :
    countThreads p (Function.update f a b) = countThreads p f := by
  unfold countThreads
  congr 1
  ext t
  by_cases ht : t = a
  · subst ht; simp [h]
  · simp [ht]

/-- A move into the property adds one. -/
theorem countThreads_update_enter (h : ¬ p (f a)) (hb : p b) :
    countThreads p (Function.update f a b) = countThreads p f + 1 := by
  have hset : (Finset.univ.filter fun t => p (Function.update f a b t))
      = insert a (Finset.univ.filter fun t => p (f t)) := by
    ext t
    by_cases ht : t = a
    · subst ht; simp [hb]
    · simp [ht]
  unfold countThreads
  rw [hset, Finset.card_insert_of_notMem (by simpa using h)]

/-- A move out of the property removes one. -/
theorem countThreads_update_leave (h : p (f a)) (hb : ¬ p b) :
    countThreads p (Function.update f a b) + 1 = countThreads p f := by
  have hback : Function.update (Function.update f a b) a (f a) = f := by simp
  have := countThreads_update_enter (f := Function.update f a b) (a := a) (b := f a)
    (p := p) (by simpa using hb) h
  rw [hback] at this
  exact this.symm

end Threads

end TiiSel4Vm.Transition
