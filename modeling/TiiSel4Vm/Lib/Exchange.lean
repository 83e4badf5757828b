import Mathlib.Data.Finset.Basic
import Mathlib.Data.List.Nodup
import TiiSel4Vm.Lib.Transition

/-!
# Things that holders pass through queues

Holders own things and pass them on through first-in first-out links, one transfer at a time.  A
thing is issued to a holder when nobody has it, and retired by the one who has it.

* `Exclusive`, `exclusive_of_reachable` — nothing is ever in two places;
* `sent_eq` — in every run what was sent along a link is what was received from it, then what is
  still in it, in order;
* `crossings_eq` — in every run a thing enters and leaves any set of places in turn.
-/

namespace TiiSel4Vm.Exchange

open TiiSel4Vm.Transition

universe u v w

variable {κ : Type u} {τ : Type v} {α : Type w}

/-- Where a thing can be. -/
inductive Place (κ : Type u) (τ : Type v) where
  | link (l : κ)
  | holder (t : τ)
  deriving DecidableEq

/-- What the links carry and the holders own. -/
structure Depot (κ : Type u) (τ : Type v) (α : Type w) where
  queue : κ → List α
  holds : τ → Finset α

/-- Nothing was issued yet. -/
def Depot.empty : Depot κ τ α := ⟨fun _ => [], fun _ => ∅⟩

/-- The thing is in the place. -/
def Depot.Has (d : Depot κ τ α) : Place κ τ → α → Prop
  | .link l, a => a ∈ d.queue l
  | .holder t, a => a ∈ d.holds t

/-- Nothing is in two places, or twice in one. -/
structure Exclusive (d : Depot κ τ α) : Prop where
  nodup : ∀ l, (d.queue l).Nodup
  owner : ∀ P Q a, d.Has P a → d.Has Q a → P = Q

inductive Transfer (κ : Type u) (τ : Type v) (α : Type w) where
  | issue (t : τ) (a : α)
  | send (t : τ) (l : κ) (a : α)
  | receive (t : τ) (l : κ) (a : α)
  | retire (t : τ) (a : α)

namespace Transfer

/-- The thing that is passed on. -/
def thing : Transfer κ τ α → α
  | .issue _ a => a
  | .send _ _ a => a
  | .receive _ _ a => a
  | .retire _ a => a

/-- Where it was, if anywhere. -/
def source : Transfer κ τ α → Option (Place κ τ)
  | .issue _ _ => none
  | .send t _ _ => some (.holder t)
  | .receive _ l _ => some (.link l)
  | .retire t _ => some (.holder t)

/-- Where it is then. -/
def target : Transfer κ τ α → Option (Place κ τ)
  | .issue t _ => some (.holder t)
  | .send _ l _ => some (.link l)
  | .receive t _ _ => some (.holder t)
  | .retire _ _ => none

variable [DecidableEq α]

/-- The transfer takes `a` into the places `S`. -/
def enters (S : Place κ τ → Bool) (a : α) (x : Transfer κ τ α) : Bool :=
  x.thing = a && (!x.source.any S && x.target.any S)

/-- The transfer takes `a` out of the places `S`. -/
def leaves (S : Place κ τ → Bool) (a : α) (x : Transfer κ τ α) : Bool :=
  x.thing = a && (x.source.any S && !x.target.any S)

variable {S : Place κ τ → Bool} {a : α} {x : Transfer κ τ α}

theorem enters_iff : x.enters S a = true ↔
    x.thing = a ∧ x.source.any S = false ∧ x.target.any S = true := by
  simp [enters]

theorem leaves_iff : x.leaves S a = true ↔
    x.thing = a ∧ x.source.any S = true ∧ x.target.any S = false := by
  simp [leaves]

end Transfer

/-- The thing is in one of the places `S`. -/
def Depot.Inside (d : Depot κ τ α) (S : Place κ τ → Bool) (a : α) : Prop :=
  ∃ P, S P = true ∧ d.Has P a

theorem not_has_empty (P : Place κ τ) (a : α) : ¬ (Depot.empty : Depot κ τ α).Has P a := by
  cases P <;> simp [Depot.empty, Depot.Has]

theorem exclusive_empty : Exclusive (Depot.empty : Depot κ τ α) where
  nodup _ := List.nodup_nil
  owner P _ a h := absurd h (not_has_empty P a)

/-! ### What one place gains or loses -/

variable {d : Depot κ τ α} {a b : α} {P : Place κ τ}

section Holders

variable [DecidableEq τ] [DecidableEq α] {t : τ}

/-- `t` owns `a` as well. -/
def Depot.give (d : Depot κ τ α) (t : τ) (a : α) : Depot κ τ α :=
  { d with holds := Function.update d.holds t (insert a (d.holds t)) }

/-- `t` no longer owns `a`. -/
def Depot.strip (d : Depot κ τ α) (t : τ) (a : α) : Depot κ τ α :=
  { d with holds := Function.update d.holds t ((d.holds t).erase a) }

theorem has_give : (d.give t a).Has P b ↔ (P = .holder t ∧ b = a) ∨ d.Has P b := by
  cases P with
  | link r => simp [Depot.give, Depot.Has]
  | holder u =>
      by_cases hu : u = t
      · subst hu
        simp [Depot.give, Depot.Has]
      · simp [Depot.give, Depot.Has, hu]

theorem has_strip : (d.strip t a).Has P b ↔ d.Has P b ∧ ¬ (P = .holder t ∧ b = a) := by
  cases P with
  | link r => simp [Depot.strip, Depot.Has]
  | holder u =>
      by_cases hu : u = t
      · subst hu
        simp only [Depot.strip, Depot.Has, Function.update_self, Finset.mem_erase, true_and]
        exact and_comm
      · simp [Depot.strip, Depot.Has, hu]

/-- Giving what nobody has. -/
theorem Exclusive.give (h : Exclusive d) (hfree : ∀ P, ¬ d.Has P a) :
    Exclusive (d.give t a) where
  nodup := h.nodup
  owner P Q b hP hQ := by
    rcases has_give.mp hP with ⟨rfl, rfl⟩ | hP'
    · rcases has_give.mp hQ with ⟨rfl, _⟩ | hQ'
      · rfl
      · exact absurd hQ' (hfree Q)
    · rcases has_give.mp hQ with ⟨rfl, rfl⟩ | hQ'
      · exact absurd hP' (hfree P)
      · exact h.owner P Q b hP' hQ'

theorem Exclusive.strip (h : Exclusive d) : Exclusive (d.strip t a) where
  nodup := h.nodup
  owner P Q b hP hQ := h.owner P Q b (has_strip.mp hP).1 (has_strip.mp hQ).1

/-- After its holder gave it up, nobody has a thing. -/
theorem Exclusive.free_strip (h : Exclusive d) (ha : a ∈ d.holds t) (P : Place κ τ) :
    ¬ (d.strip t a).Has P a := by
  intro hP
  obtain ⟨hold, hne⟩ := has_strip.mp hP
  exact hne ⟨h.owner P (.holder t) a hold ha, rfl⟩

theorem exists_has_give : (∃ P, (d.give t a).Has P b) ↔ b = a ∨ ∃ P, d.Has P b := by
  constructor
  · rintro ⟨P, hP⟩
    exact (has_give.mp hP).imp And.right fun h => ⟨P, h⟩
  · rintro (rfl | ⟨P, hP⟩)
    · exact ⟨.holder t, has_give.mpr (Or.inl ⟨rfl, rfl⟩)⟩
    · exact ⟨P, has_give.mpr (Or.inr hP)⟩

theorem Exclusive.exists_has_strip (h : Exclusive d) (ha : a ∈ d.holds t) :
    (∃ P, (d.strip t a).Has P b) ↔ (∃ P, d.Has P b) ∧ b ≠ a := by
  constructor
  · rintro ⟨P, hP⟩
    refine ⟨⟨P, (has_strip.mp hP).1⟩, ?_⟩
    rintro rfl
    exact h.free_strip ha P hP
  · rintro ⟨⟨P, hP⟩, hne⟩
    exact ⟨P, has_strip.mpr ⟨hP, fun he => hne he.2⟩⟩

end Holders

section Links

variable [DecidableEq κ] {l : κ}

/-- `a` is last in link `l`. -/
def Depot.push (d : Depot κ τ α) (l : κ) (a : α) : Depot κ τ α :=
  { d with queue := Function.update d.queue l (d.queue l ++ [a]) }

/-- Link `l` without its first thing. -/
def Depot.pop (d : Depot κ τ α) (l : κ) : Depot κ τ α :=
  { d with queue := Function.update d.queue l (d.queue l).tail }

theorem has_push : (d.push l a).Has P b ↔ d.Has P b ∨ (P = .link l ∧ b = a) := by
  cases P with
  | link r =>
      by_cases hr : r = l
      · subst hr
        simp [Depot.push, Depot.Has]
      · simp [Depot.push, Depot.Has, hr]
  | holder u => simp [Depot.push, Depot.Has]

/-- The first thing of a link without repetitions is gone after it was taken. -/
theorem has_pop (hnd : (d.queue l).Nodup) (h : (d.queue l).head? = some a) :
    (d.pop l).Has P b ↔ d.Has P b ∧ ¬ (P = .link l ∧ b = a) := by
  cases P with
  | link r =>
      by_cases hr : r = l
      · subst hr
        obtain ⟨rest, hrest⟩ := List.head?_eq_some_iff.mp h
        rw [hrest] at hnd
        have hnot := (List.nodup_cons.mp hnd).1
        simp only [Depot.pop, Depot.Has, Function.update_self, hrest, List.tail_cons,
          List.mem_cons, true_and]
        constructor
        · intro hb
          refine ⟨Or.inr hb, ?_⟩
          rintro rfl
          exact hnot hb
        · rintro ⟨rfl | hb, hne⟩
          · exact absurd rfl hne
          · exact hb
      · simp [Depot.pop, Depot.Has, hr]
  | holder u => simp [Depot.pop, Depot.Has]

/-- Queueing what nobody has. -/
theorem Exclusive.push (h : Exclusive d) (hfree : ∀ P, ¬ d.Has P a) :
    Exclusive (d.push l a) where
  nodup r := by
    by_cases hr : r = l
    · subst hr
      simp only [Depot.push, Function.update_self]
      refine List.nodup_append.mpr ⟨h.nodup r, List.nodup_singleton a, fun b hb c hc => ?_⟩
      rw [List.mem_singleton.mp hc]
      rintro rfl
      exact hfree (.link r) hb
    · simp only [Depot.push, Function.update_of_ne hr]
      exact h.nodup r
  owner P Q b hP hQ := by
    rcases has_push.mp hP with hP' | ⟨rfl, rfl⟩
    · rcases has_push.mp hQ with hQ' | ⟨rfl, rfl⟩
      · exact h.owner P Q b hP' hQ'
      · exact absurd hP' (hfree P)
    · rcases has_push.mp hQ with hQ' | ⟨rfl, _⟩
      · exact absurd hQ' (hfree Q)
      · rfl

theorem Exclusive.pop (h : Exclusive d) (ha : (d.queue l).head? = some a) :
    Exclusive (d.pop l) where
  nodup r := by
    by_cases hr : r = l
    · subst hr
      simp only [Depot.pop, Function.update_self]
      exact (h.nodup r).tail
    · simp only [Depot.pop, Function.update_of_ne hr]
      exact h.nodup r
  owner P Q b hP hQ :=
    h.owner P Q b ((has_pop (h.nodup l) ha).mp hP).1 ((has_pop (h.nodup l) ha).mp hQ).1

theorem Exclusive.free_pop (h : Exclusive d) (ha : (d.queue l).head? = some a) (P : Place κ τ) :
    ¬ (d.pop l).Has P a := by
  intro hP
  obtain ⟨hold, hne⟩ := (has_pop (h.nodup l) ha).mp hP
  exact hne ⟨h.owner P (.link l) a hold (List.mem_of_mem_head? (by simp [ha])), rfl⟩

theorem exists_has_push : (∃ P, (d.push l a).Has P b) ↔ (∃ P, d.Has P b) ∨ b = a := by
  constructor
  · rintro ⟨P, hP⟩
    exact (has_push.mp hP).imp (fun h => ⟨P, h⟩) And.right
  · rintro (⟨P, hP⟩ | rfl)
    · exact ⟨P, has_push.mpr (Or.inl hP)⟩
    · exact ⟨.link l, has_push.mpr (Or.inr ⟨rfl, rfl⟩)⟩

theorem Exclusive.exists_has_pop (h : Exclusive d) (ha : (d.queue l).head? = some a) :
    (∃ P, (d.pop l).Has P b) ↔ (∃ P, d.Has P b) ∧ b ≠ a := by
  constructor
  · rintro ⟨P, hP⟩
    refine ⟨⟨P, ((has_pop (h.nodup l) ha).mp hP).1⟩, ?_⟩
    rintro rfl
    exact h.free_pop ha P hP
  · rintro ⟨⟨P, hP⟩, hne⟩
    exact ⟨P, (has_pop (h.nodup l) ha).mpr ⟨hP, fun he => hne he.2⟩⟩

end Links

/-! ### Transfers -/

variable [DecidableEq κ] [DecidableEq τ] [DecidableEq α]

/-- One transfer. -/
inductive Step : Depot κ τ α → Transfer κ τ α → Depot κ τ α → Prop
  | issue {d : Depot κ τ α} {t : τ} {a : α} (h : ∀ P, ¬ d.Has P a) :
      Step d (.issue t a) (d.give t a)
  | send {d : Depot κ τ α} {t : τ} {l : κ} {a : α} (h : a ∈ d.holds t) :
      Step d (.send t l a) ((d.strip t a).push l a)
  | receive {d : Depot κ τ α} {t : τ} {l : κ} {a : α} (h : (d.queue l).head? = some a) :
      Step d (.receive t l a) ((d.pop l).give t a)
  | retire {d : Depot κ τ α} {t : τ} {a : α} (h : a ∈ d.holds t) :
      Step d (.retire t a) (d.strip t a)

/-- Transfers in any order. -/
def exchangeLts : Lts (Depot κ τ α) (Transfer κ τ α) where
  init d := d = .empty
  step := Step

/-- **A transfer keeps exclusiveness.** -/
theorem Exclusive.step {d d' : Depot κ τ α} {x : Transfer κ τ α} (h : Exclusive d)
    (hs : Step d x d') : Exclusive d' := by
  cases hs with
  | issue hfree => exact h.give hfree
  | send ha => exact h.strip.push (h.free_strip ha)
  | receive ha => exact (h.pop ha).give (h.free_pop ha)
  | retire ha => exact h.strip

/-- Passing a thing on changes where it is, not whether it is. -/
theorem Step.exists_has {d d' : Depot κ τ α} {x : Transfer κ τ α} (hs : Step d x d')
    (h : Exclusive d) (hx : ∀ t a, x ≠ .issue t a ∧ x ≠ .retire t a) {b : α} :
    (∃ P, d'.Has P b) ↔ ∃ P, d.Has P b := by
  cases hs with
  | @issue t a hfree => exact absurd rfl (hx t a).1
  | @retire t a ha => exact absurd rfl (hx t a).2
  | @send t l a ha =>
      rw [exists_has_push, h.exists_has_strip ha]
      constructor
      · rintro (⟨hb, _⟩ | rfl)
        · exact hb
        · exact ⟨.holder t, ha⟩
      · intro hb
        by_cases hba : b = a
        · exact Or.inr hba
        · exact Or.inl ⟨hb, hba⟩
  | @receive t l a ha =>
      rw [exists_has_give, h.exists_has_pop ha]
      constructor
      · rintro (rfl | ⟨hb, _⟩)
        · exact ⟨.link l, List.mem_of_mem_head? (by simp [ha])⟩
        · exact hb
      · intro hb
        by_cases hba : b = a
        · exact Or.inl hba
        · exact Or.inr ⟨hb, hba⟩

theorem exclusive_of_reachable {d : Depot κ τ α}
    (h : (exchangeLts (κ := κ) (τ := τ)).Reachable d) : Exclusive d := by
  refine h.invariant (I := Exclusive) (fun d hd => ?_) fun d x d' _ hi hs => hi.step hs
  cases hd
  exact exclusive_empty

/-! ### First in, first out -/

/-- What the transfer sends along the link. -/
def Transfer.sends (l : κ) : Transfer κ τ α → Option α
  | .send _ r a => if r = l then some a else none
  | _ => none

/-- What the transfer receives from the link. -/
def Transfer.receives (l : κ) : Transfer κ τ α → Option α
  | .receive _ r a => if r = l then some a else none
  | _ => none

/-- One transfer, seen from a link. -/
theorem Step.queue_eq {d d' : Depot κ τ α} {x : Transfer κ τ α} (hs : Step d x d') (l : κ) :
    d.queue l ++ (x.sends l).toList = (x.receives l).toList ++ d'.queue l := by
  cases hs with
  | issue hfree => simp [Transfer.sends, Transfer.receives, Depot.give]
  | @send t r a ha =>
      by_cases hr : l = r
      · subst hr
        simp [Transfer.sends, Transfer.receives, Depot.push, Depot.strip]
      · simp [Transfer.sends, Transfer.receives, Depot.push, Depot.strip,
          Function.update_of_ne hr, Ne.symm hr]
  | @receive t r a ha =>
      by_cases hr : l = r
      · subst hr
        obtain ⟨rest, hrest⟩ := List.head?_eq_some_iff.mp ha
        simp [Transfer.sends, Transfer.receives, Depot.give, Depot.pop, hrest]
      · simp [Transfer.sends, Transfer.receives, Depot.give, Depot.pop,
          Function.update_of_ne hr, Ne.symm hr]
  | retire ha => simp [Transfer.sends, Transfer.receives, Depot.strip]

/-- **First in, first out.**  What a run sent along a link after what was in it is what it received
from it, then what is in it now. -/
theorem sent_eq {d d' : Depot κ τ α} {xs : List (Transfer κ τ α)}
    (h : (exchangeLts (κ := κ) (τ := τ)).Run d xs d') (l : κ) :
    d.queue l ++ xs.filterMap (Transfer.sends l)
      = xs.filterMap (Transfer.receives l) ++ d'.queue l := by
  induction h with
  | nil => simp
  | @snoc d₁ d₂ xs x _ hs ih =>
      have hx : ∀ f : Transfer κ τ α → Option α, [x].filterMap f = (f x).toList := fun f => by
        cases hf : f x <;> simp [hf]
      rw [List.filterMap_append, ← List.append_assoc, ih, List.append_assoc, hx,
        Step.queue_eq hs l, List.filterMap_append, hx, List.append_assoc]

/-! ### Crossings -/

/-- A transfer needs its thing where it was. -/
theorem Step.has_source {d d' : Depot κ τ α} {x : Transfer κ τ α} (hs : Step d x d')
    (h : Exclusive d) (P : Place κ τ) : d.Has P x.thing ↔ x.source = some P := by
  have honly : ∀ Q a, d.Has Q a → (d.Has P a ↔ some Q = some P) := by
    intro Q a hQ
    constructor
    · intro hP
      rw [h.owner P Q a hP hQ]
    · intro heq
      cases heq
      exact hQ
  cases hs with
  | issue hfree =>
      constructor
      · intro hP
        exact absurd hP (hfree P)
      · intro heq
        cases heq
  | @send t l a ha => exact honly (.holder t) a ha
  | @receive t l a ha => exact honly (.link l) a (List.mem_of_mem_head? (by simp [ha]))
  | @retire t a ha => exact honly (.holder t) a ha

/-- After it the thing is where it was taken to, and nothing else has moved. -/
theorem Step.has_target {d d' : Depot κ τ α} {x : Transfer κ τ α} (hs : Step d x d')
    (h : Exclusive d) (P : Place κ τ) (b : α) :
    d'.Has P b ↔ (b = x.thing ∧ x.target = some P) ∨ (b ≠ x.thing ∧ d.Has P b) := by
  cases hs with
  | @issue t a hfree =>
      rw [has_give]
      by_cases hb : b = a
      · subst hb
        simp [Transfer.thing, Transfer.target, hfree P, eq_comm]
      · simp [Transfer.thing, hb]
  | @send t l a ha =>
      rw [has_push]
      by_cases hb : b = a
      · subst hb
        simp [Transfer.thing, Transfer.target, h.free_strip ha P, eq_comm]
      · simp [Transfer.thing, has_strip, hb]
  | @receive t l a ha =>
      rw [has_give]
      by_cases hb : b = a
      · subst hb
        simp [Transfer.thing, Transfer.target, h.free_pop ha P, eq_comm]
      · simp [Transfer.thing, has_pop (h.nodup l) ha, hb]
  | @retire t a ha =>
      by_cases hb : b = a
      · subst hb
        simp [Transfer.thing, Transfer.target, h.free_strip ha P]
      · simp [Transfer.thing, has_strip, hb]

/-- One transfer, seen from the border of `S`. -/
theorem Step.inside_iff {d d' : Depot κ τ α} {x : Transfer κ τ α} (hs : Step d x d')
    (h : Exclusive d) (S : Place κ τ → Bool) (a : α) :
    (x.thing = a → (d.Inside S a ↔ x.source.any S = true) ∧
        (d'.Inside S a ↔ x.target.any S = true)) ∧
      (x.thing ≠ a → (d'.Inside S a ↔ d.Inside S a)) := by
  constructor
  · rintro rfl
    simp only [Depot.Inside, hs.has_source h, hs.has_target h, Option.any_eq_true]
    simp [and_comm]
  · intro hne
    simp only [Depot.Inside, hs.has_target h]
    simp [hne.symm]

/-- **Crossings balance.**  In every run a thing has entered the places `S` as often as it has left
them, and once more if it is inside. -/
theorem crossings_eq {d : Depot κ τ α} {xs : List (Transfer κ τ α)}
    (h : (exchangeLts (κ := κ) (τ := τ)).Run .empty xs d) (S : Place κ τ → Bool) (a : α) :
    (d.Inside S a → xs.countP (Transfer.enters S a) = xs.countP (Transfer.leaves S a) + 1) ∧
      (¬ d.Inside S a → xs.countP (Transfer.enters S a) = xs.countP (Transfer.leaves S a)) := by
  induction h with
  | nil =>
      refine ⟨?_, fun _ => rfl⟩
      rintro ⟨P, -, hP⟩
      exact absurd hP (not_has_empty P a)
  | @snoc d₁ d₂ xs x hrun hs ih =>
      have hexclusive := exclusive_of_reachable (Lts.Reachable.run (.init rfl) hrun)
      obtain ⟨hthing, hother⟩ := hs.inside_iff hexclusive S a
      rw [List.countP_append, List.countP_append, List.countP_singleton, List.countP_singleton]
      by_cases hx : x.thing = a
      · obtain ⟨hsource, htarget⟩ := hthing hx
        rw [hsource] at ih
        rw [htarget]
        -- the four ways to lie on the border
        cases hin : x.source.any S <;> cases hout : x.target.any S <;>
          simp [Transfer.enters, Transfer.leaves, hx, hin, hout] at ih ⊢ <;> omega
      · rw [hother hx]
        simpa [Transfer.enters, Transfer.leaves, hx] using ih

end TiiSel4Vm.Exchange
