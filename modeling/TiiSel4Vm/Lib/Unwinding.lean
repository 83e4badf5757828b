import Mathlib.Data.List.Basic

/-!
# Purging a run

A machine takes inputs from several parties and answers each.  What one party sees is the same when
the inputs of the others are purged, if every input of the others leaves what it sees and every
input of its own acts on what it sees alone.

* `Unwinds` — the two conditions, for a relation of what the party sees in two states;
* `Unwinds.purge` — a run against its purged run;
* `Unwinds.agree` — two runs with the same inputs of the party.
-/

namespace TiiSel4Vm.Unwinding

variable {σ ι ο : Type*}

/-- The state after a list of inputs. -/
def final (step : σ → ι → ο × σ) : σ → List ι → σ
  | s, [] => s
  | s, i :: is => final step (step s i).2 is

/-- The answers to the inputs that `own` picks. -/
def answers (step : σ → ι → ο × σ) (own : ι → Bool) : σ → List ι → List ο
  | _, [] => []
  | s, i :: is =>
      if own i then (step s i).1 :: answers step own (step s i).2 is
      else answers step own (step s i).2 is

/-- Every input meets the condition in the state it comes to. -/
def Along (step : σ → ι → ο × σ) (G : σ → ι → Prop) : σ → List ι → Prop
  | _, [] => True
  | s, i :: is => G s i ∧ Along step G (step s i).2 is

/-- The inputs that `own` picks act on what `R` compares, and the others leave it. -/
structure Unwinds (step : σ → ι → ο × σ) (own : ι → Bool) (G : σ → ι → Prop)
    (R : σ → σ → Prop) : Prop where
  hidden : ∀ s t i, R s t → G s i → own i = false → R (step s i).2 t
  own : ∀ s t i, R s t → G s i → own i = true →
    (step s i).1 = (step t i).1 ∧ R (step s i).2 (step t i).2

variable {step : σ → ι → ο × σ} {own : ι → Bool} {G : σ → ι → Prop} {R : σ → σ → Prop}

@[simp] theorem final_nil (s : σ) : final step s [] = s := rfl

@[simp] theorem final_cons (s : σ) (i : ι) (is : List ι) :
    final step s (i :: is) = final step (step s i).2 is := rfl

/-- **The purged run.**  A run and the run of the party's own inputs end alike for it, and give it
the same answers. -/
theorem Unwinds.purge (h : Unwinds step own G R) {s t : σ} (hR : R s t) {is : List ι}
    (hG : Along step G s is) :
    R (final step s is) (final step t (is.filter own)) ∧
      answers step own s is = answers step own t (is.filter own) := by
  induction is generalizing s t with
  | nil => exact ⟨hR, rfl⟩
  | cons i is ih =>
      obtain ⟨hi, hrest⟩ := hG
      cases hown : own i with
      | false =>
          have hnext := h.hidden s t i hR hi hown
          obtain ⟨hend, hanswers⟩ := ih hnext hrest
          rw [List.filter_cons_of_neg (by simp [hown])]
          refine ⟨hend, ?_⟩
          show (if own i then _ else _) = _
          rw [hown]
          exact hanswers
      | true =>
          obtain ⟨hanswer, hnext⟩ := h.own s t i hR hi hown
          obtain ⟨hend, hanswers⟩ := ih hnext hrest
          rw [List.filter_cons_of_pos hown]
          refine ⟨hend, ?_⟩
          show (if own i then _ else _) = if own i then _ else _
          rw [hown, if_pos rfl, if_pos rfl, hanswer, hanswers]

/-- **Two runs.**  Runs with the same inputs of the party are alike for it, whatever the others do
in each. -/
theorem Unwinds.agree (h : Unwinds step own G R) {ν : Type*} {view : σ → ν}
    (hview : ∀ s t, R s t → view s = view t) {s : σ} (hR : R s s) {is js : List ι}
    (hG : Along step G s is) (hG' : Along step G s js) (hsame : is.filter own = js.filter own) :
    view (final step s is) = view (final step s js) ∧
      answers step own s is = answers step own s js := by
  obtain ⟨hend, hanswers⟩ := h.purge hR hG
  obtain ⟨hend', hanswers'⟩ := h.purge hR hG'
  rw [hsame] at hend hanswers
  constructor
  · calc view (final step s is) = view (final step s (js.filter own)) := hview _ _ hend
      _ = view (final step s js) := (hview _ _ hend').symm
  · rw [hanswers, hanswers']

end TiiSel4Vm.Unwinding
