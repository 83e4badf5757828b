import Mathlib.Data.Finset.Basic
import Mathlib.Data.Nat.Find
import Mathlib.Tactic.Common

/-!
# Sets of indices

A finite set of indices with three calls: look for the first index below a size that is not in the
set, put an index in, take one out.

* `firstFree_eq_iff` — what the search finds; `firstFree_congr`, it looks at nothing from the size
  on;
* `answers_simulate` — an object whose calls answer and move like those of another does so over
  every sequence of calls.
-/

namespace TiiSel4Vm.IndexSet

universe u v w

/-! ### The first free index -/

theorem exists_free (s : Finset ℕ) (size : ℕ) : ∃ k, size ≤ k ∨ k ∉ s := ⟨size, Or.inl le_rfl⟩

/-- The least index below `size` that is not in the set, or `size`. -/
def firstFree (s : Finset ℕ) (size : ℕ) : ℕ := Nat.find (exists_free s size)

variable {s t : Finset ℕ} {size k r : ℕ}

theorem firstFree_le (s : Finset ℕ) (size : ℕ) : firstFree s size ≤ size :=
  Nat.find_min' (exists_free s size) (Or.inl le_rfl)

theorem firstFree_le_of_not_mem (hk : k ∉ s) : firstFree s size ≤ k :=
  Nat.find_min' (exists_free s size) (Or.inr hk)

theorem mem_of_lt_firstFree (hk : k < firstFree s size) : k ∈ s := by
  by_contra hfree
  exact absurd (firstFree_le_of_not_mem hfree) (Nat.not_le.mpr hk)

theorem firstFree_not_mem (h : firstFree s size < size) : firstFree s size ∉ s := by
  rcases Nat.find_spec (exists_free s size) with hle | hfree
  · exact absurd h (Nat.not_lt.mpr hle)
  · exact hfree

/-- What the search finds. -/
theorem firstFree_eq_iff : firstFree s size = r ↔
    r ≤ size ∧ (∀ k < r, k ∈ s) ∧ (r < size → r ∉ s) := by
  constructor
  · rintro rfl
    exact ⟨firstFree_le s size, fun k hk => mem_of_lt_firstFree hk, firstFree_not_mem⟩
  · rintro ⟨hle, hbelow, hfree⟩
    apply le_antisymm
    · rcases Nat.lt_or_ge r size with hlt | hge
      · exact firstFree_le_of_not_mem (hfree hlt)
      · exact (firstFree_le s size).trans hge
    · by_contra hlt
      have hlt' := Nat.lt_of_not_le hlt
      exact firstFree_not_mem (hlt'.trans_le hle) (hbelow _ hlt')

/-- The search fails exactly when there is nothing to find. -/
theorem firstFree_eq_size_iff : firstFree s size = size ↔ ∀ k < size, k ∈ s := by
  rw [firstFree_eq_iff]
  exact ⟨fun h => h.2.1, fun h => ⟨le_rfl, h, fun hlt => absurd hlt (Nat.lt_irrefl size)⟩⟩

/-- Indices from `size` on do not matter. -/
theorem firstFree_congr (h : ∀ k < size, k ∈ s ↔ k ∈ t) : firstFree s size = firstFree t size := by
  refine firstFree_eq_iff.mpr ⟨firstFree_le t size, fun k hk => ?_, fun hlt => ?_⟩
  · exact (h k (hk.trans_le (firstFree_le t size))).mpr (mem_of_lt_firstFree hk)
  · rw [h _ hlt]
    exact firstFree_not_mem hlt

/-! ### Sequences of calls -/

/-- A call on a set of indices. -/
inductive Call where
  | firstFree (size : ℕ)
  | insert (i : ℕ)
  | erase (i : ℕ)

/-- What a call returns, and the set it leaves. -/
def call (s : Finset ℕ) : Call → Option ℕ × Finset ℕ
  | .firstFree size => (some (firstFree s size), s)
  | .insert i => (none, insert i s)
  | .erase i => (none, s.erase i)

section Answers

variable {σ : Type u} {τ : Type*} {ι : Type v} {ρ : Type w}

/-- The answers to a sequence of calls, and the state after it. -/
def answers (f : σ → ι → ρ × σ) (x : σ) : List ι → List ρ × σ
  | [] => ([], x)
  | c :: cs => ((f x c).1 :: (answers f (f x c).2 cs).1, (answers f (f x c).2 cs).2)

/-- **Objects that cannot be told apart.**  If related states answer every permitted call alike and
stay related, they answer every sequence of permitted calls alike. -/
theorem answers_simulate {f : σ → ι → ρ × σ} {g : τ → ι → ρ × τ} {R : σ → τ → Prop}
    {permitted : ι → Prop}
    (hstep : ∀ x y c, R x y → permitted c → (f x c).1 = (g y c).1 ∧ R (f x c).2 (g y c).2)
    {cs : List ι} (hcs : ∀ c ∈ cs, permitted c) {x : σ} {y : τ} (hR : R x y) :
    (answers f x cs).1 = (answers g y cs).1 ∧ R (answers f x cs).2 (answers g y cs).2 := by
  induction cs generalizing x y with
  | nil => exact ⟨rfl, hR⟩
  | cons c cs ih =>
      obtain ⟨hans, hR'⟩ := hstep x y c hR (hcs c List.mem_cons_self)
      obtain ⟨htail, hlast⟩ := ih (fun c' hc' => hcs c' (List.mem_cons_of_mem c hc')) hR'
      refine ⟨?_, hlast⟩
      rw [answers, answers, hans, htail]

end Answers

end TiiSel4Vm.IndexSet
