import Mathlib.Data.Int.Notation
import Mathlib.Data.Nat.Notation
import Mathlib.Tactic.Common

/-!
# Loops that take items until one fails

A loop takes an item, works on it and leaves by `break` when the work returned an error; otherwise
the loop's increment releases the item.  The error variable is the caller's and may hold a value
already.

* `forEach_completed_or_broken` — a run works on all items, or stops at one that is not released;
* `forEach_state` — what a run makes of a part of the state that only the release changes;
* `forEach_isSome` — enough turns for a run to end.
-/

namespace TiiSel4Vm.ForEach

universe u v w

/-- One turn of the loop, up to the increment. -/
inductive Turn (α : Type u) (σ : Type v) where
  /-- it does not come back -/
  | stuck
  /-- there is no item -/
  | done (s : σ)
  /-- it took an item, and the work on it returned `rc` -/
  | item (a : α) (rc : ℤ) (s : σ)

/-- What a run leaves: the error variable, the items it took, each with what the work on it
returned, and the items it released. -/
structure LoopEnd (α : Type u) (σ : Type v) where
  state : σ
  rc : ℤ
  items : List (α × ℤ)
  released : List α

variable {α : Type u} {σ : Type v}

/-- The run before this one took and released `a`. -/
def LoopEnd.after (a : α) (e : LoopEnd α σ) : LoopEnd α σ :=
  { e with items := (a, 0) :: e.items, released := a :: e.released }

/-- Run the loop for at most `fuel` turns. -/
def forEach (turn : σ → Turn α σ) (incr : α → σ → σ) : ℕ → σ → ℤ → Option (LoopEnd α σ)
  | 0, _, _ => none
  | fuel + 1, s, rc =>
      match turn s with
      | .stuck => none
      | .done s' => some ⟨s', rc, [], []⟩
      | .item a rc' s' =>
          if rc' = 0 then (forEach turn incr fuel (incr a s') 0).map (LoopEnd.after a)
          else some ⟨s', rc', [(a, rc')], []⟩

/-- The loop comes to an item whose work fails. -/
inductive Fails (turn : σ → Turn α σ) (incr : α → σ → σ) : σ → Prop
  | here {s s' : σ} {a : α} {rc : ℤ} : turn s = .item a rc s' → rc ≠ 0 → Fails turn incr s
  | later {s s' : σ} {a : α} : turn s = .item a 0 s' → Fails turn incr (incr a s') →
      Fails turn incr s

/-- All work succeeded and all items were released; the error variable holds 0 if there was an
item. -/
structure Completed (rc : ℤ) (e : LoopEnd α σ) : Prop where
  zero : ∀ i ∈ e.items, i.2 = 0
  released : e.released = e.items.map Prod.fst
  rc_eq : e.rc = if e.items = [] then rc else 0

/-- The work on the last item failed; the items before it were released. -/
structure Broken (e : LoopEnd α σ) : Prop where
  rc_ne : e.rc ≠ 0
  last : ∃ pre a, e.items = pre ++ [(a, e.rc)] ∧ (∀ i ∈ pre, i.2 = 0) ∧
    e.released = pre.map Prod.fst

theorem Completed.after {rc : ℤ} {e : LoopEnd α σ} (h : Completed 0 e) (a : α) :
    Completed rc (e.after a) where
  zero := by
    intro i hi
    rcases List.mem_cons.mp hi with rfl | hmem
    · rfl
    · exact h.zero i hmem
  released := by
    show a :: e.released = a :: e.items.map Prod.fst
    rw [h.released]
  rc_eq := by
    show e.rc = 0
    rw [h.rc_eq]
    exact ite_self 0

theorem Broken.after {e : LoopEnd α σ} (h : Broken e) (a : α) : Broken (e.after a) where
  rc_ne := h.rc_ne
  last := by
    obtain ⟨pre, b, hitems, hzero, hreleased⟩ := h.last
    refine ⟨(a, 0) :: pre, b, ?_, ?_, ?_⟩
    · show (a, 0) :: e.items = _
      rw [hitems]
      rfl
    · intro i hi
      rcases List.mem_cons.mp hi with rfl | hmem
      · rfl
      · exact hzero i hmem
    · show a :: e.released = _
      rw [hreleased]
      rfl

/-- A broken run released fewer items than it took. -/
theorem Broken.released_ne {e : LoopEnd α σ} (h : Broken e) :
    e.released ≠ e.items.map Prod.fst := by
  obtain ⟨pre, a, hitems, -, hreleased⟩ := h.last
  intro heq
  have hlen := congrArg List.length heq
  rw [hreleased, hitems] at hlen
  simp at hlen

section Run

variable {turn : σ → Turn α σ} {incr : α → σ → σ} {e : LoopEnd α σ}

/-- **Runs.**  A run of the loop works on all items and releases each, or it stops at the first item
whose work fails and does not release that one. -/
theorem forEach_completed_or_broken {fuel : ℕ} {s : σ} {rc : ℤ}
    (h : forEach turn incr fuel s rc = some e) :
    (¬ Fails turn incr s ∧ Completed rc e) ∨ (Fails turn incr s ∧ Broken e) := by
  induction fuel generalizing s rc e with
  | zero => cases h
  | succ fuel ih =>
      unfold forEach at h
      cases hturn : turn s with
      | stuck =>
          rw [hturn] at h
          cases h
      | done s' =>
          rw [hturn] at h
          cases h
          refine .inl ⟨?_, ⟨?_, rfl, rfl⟩⟩
          · intro hfails
            cases hfails with
            | here hitem _ => rw [hturn] at hitem; cases hitem
            | later hitem _ => rw [hturn] at hitem; cases hitem
          · intro i hi
            cases hi
      | item a rc' s' =>
          simp only [hturn] at h
          by_cases hzero : rc' = 0
          · rw [if_pos hzero] at h
            subst hzero
            obtain ⟨e', hrest, rfl⟩ := Option.map_eq_some_iff.mp h
            rcases ih hrest with ⟨hok, hcompleted⟩ | ⟨hfails, hbroken⟩
            · refine .inl ⟨?_, hcompleted.after a⟩
              intro hfails
              cases hfails with
              | here hitem hne =>
                  rw [hturn] at hitem
                  cases hitem
                  exact hne rfl
              | later hitem hrest' =>
                  rw [hturn] at hitem
                  cases hitem
                  exact hok hrest'
            · exact .inr ⟨.later hturn hfails, hbroken.after a⟩
          · rw [if_neg hzero] at h
            cases h
            refine .inr ⟨.here hturn hzero, ⟨hzero, [], a, rfl, ?_, rfl⟩⟩
            intro i hi
            cases hi

/-- **What the releases do.**  A part of the state that neither taking an item nor the work on it
changes is changed by the releases alone, in their order. -/
theorem forEach_state {γ : Type w} {f : σ → γ} {g : γ → α → γ}
    (hdone : ∀ s s', turn s = .done s' → f s' = f s)
    (hitem : ∀ s a rc s', turn s = .item a rc s' → f s' = f s)
    (hincr : ∀ a s, f (incr a s) = g (f s) a) {fuel : ℕ} {s : σ} {rc : ℤ}
    (h : forEach turn incr fuel s rc = some e) : f e.state = e.released.foldl g (f s) := by
  induction fuel generalizing s rc e with
  | zero => cases h
  | succ fuel ih =>
      unfold forEach at h
      cases hturn : turn s with
      | stuck =>
          rw [hturn] at h
          cases h
      | done s' =>
          rw [hturn] at h
          cases h
          exact hdone s s' hturn
      | item a rc' s' =>
          simp only [hturn] at h
          by_cases hzero : rc' = 0
          · rw [if_pos hzero] at h
            obtain ⟨e', hrest, rfl⟩ := Option.map_eq_some_iff.mp h
            show f e'.state = e'.released.foldl g (g (f s) a)
            rw [ih hrest, hincr, hitem s a rc' s' hturn]
          · rw [if_neg hzero] at h
            cases h
            exact hitem s a rc' s' hturn

/-- **Enough turns.**  A loop that takes the items of a list one by one ends within one turn more
than there are items. -/
theorem forEach_isSome {γ : Type w} {I : σ → List γ → Prop}
    (hturn : ∀ s xs, I s xs → (∃ s', turn s = .done s') ∨
      ∃ x rest a rc s', xs = x :: rest ∧ turn s = .item a rc s' ∧ I (incr a s') rest)
    {fuel : ℕ} {s : σ} {rc : ℤ} {xs : List γ} (hs : I s xs) (hfuel : xs.length < fuel) :
    (forEach turn incr fuel s rc).isSome := by
  induction fuel generalizing s rc xs with
  | zero => exact absurd hfuel (Nat.not_lt_zero _)
  | succ fuel ih =>
      unfold forEach
      rcases hturn s xs hs with ⟨s', hdone⟩ | ⟨x, rest, a, rc', s', rfl, hitem, hrest⟩
      · rw [hdone]
        rfl
      · simp only [hitem]
        by_cases hzero : rc' = 0
        · rw [if_pos hzero, Option.isSome_map]
          exact ih hrest (Nat.lt_of_succ_lt_succ hfuel)
        · rw [if_neg hzero]
          rfl

end Run

end TiiSel4Vm.ForEach
