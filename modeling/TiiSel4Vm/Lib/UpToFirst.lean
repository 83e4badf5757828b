import Mathlib.Data.List.Basic
import Mathlib.Data.List.Count
import Mathlib.Tactic.Common

/-!
# A list up to its first hit

`upToFirst p xs` is what a search that stops at the first hit has looked at: the elements of `xs` up
to and including the first that satisfies `p`.

* `upToFirst_append_of_forall`, `upToFirst_append_of_exists` — a stretch without a hit is passed,
  one with a hit is where the search stays;
* `count_upToFirst_iff` — when every key of the list is met exactly once.
-/

namespace TiiSel4Vm.UpToFirst

universe u v

variable {α : Type u} {β : Type v}

/-- The elements up to and including the first that satisfies `p`. -/
def upToFirst (p : α → Prop) [DecidablePred p] : List α → List α
  | [] => []
  | x :: xs => if p x then [x] else x :: upToFirst p xs

variable {p : α → Prop} [DecidablePred p] {xs pre post : List α} {x : α}

theorem upToFirst_cons_of_pos (h : p x) : upToFirst p (x :: xs) = [x] := if_pos h

theorem upToFirst_cons_of_neg (h : ¬ p x) : upToFirst p (x :: xs) = x :: upToFirst p xs := if_neg h

theorem upToFirst_cons_eq (p : α → Prop) [DecidablePred p] (x : α) (xs : List α) :
    ∃ rest, upToFirst p (x :: xs) = x :: rest := by
  by_cases hx : p x
  · exact ⟨[], upToFirst_cons_of_pos hx⟩
  · exact ⟨_, upToFirst_cons_of_neg hx⟩

theorem mem_of_mem_upToFirst (h : x ∈ upToFirst p xs) : x ∈ xs := by
  induction xs with
  | nil => exact h
  | cons y ys ih =>
      by_cases hy : p y
      · rw [upToFirst_cons_of_pos hy, List.mem_singleton] at h
        exact List.mem_cons.mpr (Or.inl h)
      · rw [upToFirst_cons_of_neg hy] at h
        rcases List.mem_cons.mp h with rfl | h'
        · exact List.mem_cons_self
        · exact List.mem_cons_of_mem _ (ih h')

/-- The search passes a stretch without a hit. -/
theorem upToFirst_append_of_forall (h : ∀ y ∈ pre, ¬ p y) :
    upToFirst p (pre ++ xs) = pre ++ upToFirst p xs := by
  induction pre with
  | nil => rfl
  | cons y ys ih =>
      rw [List.cons_append, upToFirst_cons_of_neg (h y List.mem_cons_self),
        ih fun z hz => h z (List.mem_cons_of_mem _ hz), List.cons_append]

/-- The search stays in a stretch with a hit. -/
theorem upToFirst_append_of_exists (h : ∃ y ∈ pre, p y) :
    upToFirst p (pre ++ xs) = upToFirst p pre := by
  induction pre with
  | nil =>
      obtain ⟨y, hy, _⟩ := h
      exact absurd hy List.not_mem_nil
  | cons y ys ih =>
      rw [List.cons_append]
      by_cases hy : p y
      · rw [upToFirst_cons_of_pos hy, upToFirst_cons_of_pos hy]
      · obtain ⟨z, hz, hpz⟩ := h
        have hys : ∃ z ∈ ys, p z := by
          rcases List.mem_cons.mp hz with rfl | hz'
          · exact absurd hpz hy
          · exact ⟨z, hz', hpz⟩
        rw [upToFirst_cons_of_neg hy, upToFirst_cons_of_neg hy, ih hys]

/-- The search looks at what stands behind no hit. -/
theorem mem_upToFirst_iff :
    x ∈ upToFirst p xs ↔ ∃ pre post, xs = pre ++ x :: post ∧ ∀ y ∈ pre, ¬ p y := by
  constructor
  · intro h
    induction xs with
    | nil => exact absurd h List.not_mem_nil
    | cons y ys ih =>
        by_cases hy : p y
        · rw [upToFirst_cons_of_pos hy, List.mem_singleton] at h
          subst h
          exact ⟨[], ys, rfl, fun _ hz => absurd hz List.not_mem_nil⟩
        · rw [upToFirst_cons_of_neg hy] at h
          rcases List.mem_cons.mp h with rfl | h'
          · exact ⟨[], ys, rfl, fun _ hz => absurd hz List.not_mem_nil⟩
          · obtain ⟨pre, post, rfl, hpre⟩ := ih h'
            refine ⟨y :: pre, post, rfl, fun z hz => ?_⟩
            rcases List.mem_cons.mp hz with rfl | hz'
            · exact hy
            · exact hpre z hz'
  · rintro ⟨pre, post, rfl, hpre⟩
    rw [upToFirst_append_of_forall hpre]
    obtain ⟨rest, hrest⟩ := upToFirst_cons_eq p x post
    rw [hrest]
    exact List.mem_append_right _ List.mem_cons_self

section Keys

variable [DecidableEq β] {key : α → β}

/-- The first element with a given key. -/
theorem exists_first (key : α → β) (hx : x ∈ xs) :
    ∃ pre y post, xs = pre ++ y :: post ∧ key y = key x ∧ ∀ z ∈ pre, key z ≠ key x := by
  induction xs with
  | nil => exact absurd hx List.not_mem_nil
  | cons y ys ih =>
      by_cases hy : key y = key x
      · exact ⟨[], y, ys, rfl, hy, fun _ hz => absurd hz List.not_mem_nil⟩
      · have hys : x ∈ ys := by
          rcases List.mem_cons.mp hx with rfl | h
          · exact absurd rfl hy
          · exact h
        obtain ⟨pre, z, post, rfl, hz, hpre⟩ := ih hys
        refine ⟨y :: pre, z, post, rfl, hz, fun w hw => ?_⟩
        rcases List.mem_cons.mp hw with rfl | hw'
        · exact hy
        · exact hpre w hw'

theorem count_map_eq_zero (h : ∀ z ∈ pre, key z ≠ key x) : (pre.map key).count (key x) = 0 := by
  refine List.count_eq_zero.mpr fun hm => ?_
  obtain ⟨z, hz, he⟩ := List.mem_map.mp hm
  exact h z hz he

/-- **Every key once.**  The search meets every key of the list exactly once if and only if an
element stands behind a hit exactly when its key has occurred before. -/
theorem count_upToFirst_iff :
    (∀ x ∈ xs, ((upToFirst p xs).map key).count (key x) = 1) ↔
      ∀ pre x post, xs = pre ++ x :: post → ((∃ y ∈ pre, p y) ↔ ∃ y ∈ pre, key y = key x) := by
  constructor
  · rintro h pre x post rfl
    have hone := h x (List.mem_append_right _ List.mem_cons_self)
    by_cases hhit : ∃ y ∈ pre, p y
    · rw [upToFirst_append_of_exists hhit] at hone
      have hmem : key x ∈ (upToFirst p pre).map key := by
        rw [← List.count_pos_iff, hone]
        exact Nat.one_pos
      obtain ⟨y, hy, he⟩ := List.mem_map.mp hmem
      exact ⟨fun _ => ⟨y, mem_of_mem_upToFirst hy, he⟩, fun _ => hhit⟩
    · -- the search reaches `x`, which is the one occurrence of its key
      have hpass : ∀ y ∈ pre, ¬ p y := fun y hy hp => hhit ⟨y, hy, hp⟩
      obtain ⟨rest, hrest⟩ := upToFirst_cons_eq p x post
      rw [upToFirst_append_of_forall hpass, hrest, List.map_append, List.count_append,
        List.map_cons, List.count_cons_self] at hone
      refine ⟨fun hp => absurd hp hhit, fun ⟨y, hy, he⟩ => ?_⟩
      have hpos : 0 < (pre.map key).count (key x) :=
        List.count_pos_iff.mpr (List.mem_map.mpr ⟨y, hy, he⟩)
      omega
  · intro h x hx
    obtain ⟨pre, y, post, rfl, hy, hpre⟩ := exists_first key hx
    have hpass : ∀ z ∈ pre, ¬ p z := by
      intro z hz hp
      obtain ⟨w, hw, he⟩ := (h pre y post rfl).mp ⟨z, hz, hp⟩
      exact hpre w hw (he.trans hy)
    rw [upToFirst_append_of_forall hpass, List.map_append, List.count_append,
      count_map_eq_zero hpre, Nat.zero_add]
    by_cases hp : p y
    · rw [upToFirst_cons_of_pos hp, List.map_singleton, hy, List.count_singleton_self]
    · rw [upToFirst_cons_of_neg hp, List.map_cons, hy, List.count_cons_self]
      -- a second occurrence would stand behind a hit, and the search behind none
      have hzero : ((upToFirst p post).map key).count (key x) = 0 := by
        refine count_map_eq_zero fun z hz he => ?_
        obtain ⟨a, b, rfl, ha⟩ := mem_upToFirst_iff.mp hz
        have hcond := h (pre ++ y :: a) z b (by simp)
        obtain ⟨w, hw, hpw⟩ := hcond.mpr ⟨y, by simp, hy.trans he.symm⟩
        rcases List.mem_append.mp hw with hw | hw
        · exact hpass w hw hpw
        · rcases List.mem_cons.mp hw with rfl | hw
          · exact hp hpw
          · exact ha w hw hpw
      rw [hzero]

end Keys

end TiiSel4Vm.UpToFirst
