import Mathlib.Data.List.Nodup
import Mathlib.Logic.Function.Basic
import Mathlib.Tactic.Common

/-!
# Exclusive ownership

A family of holders, each with a list of things it holds.  `Exclusive` says that nothing is held
twice, by two holders or by one.  Giving away keeps it; taking keeps it exactly when nobody else
holds the thing.
-/

namespace TiiSel4Vm.Ownership

universe u v

variable {ι : Type u} {α : Type v} [DecidableEq ι]

/-- Nothing is held twice. -/
structure Exclusive (held : ι → List α) : Prop where
  nodup : ∀ i, (held i).Nodup
  owner : ∀ i j a, a ∈ held i → a ∈ held j → i = j

/-- `i` holds `a` as well, last. -/
def take (held : ι → List α) (i : ι) (a : α) : ι → List α :=
  Function.update held i (held i ++ [a])

/-- `i` gives up one `a`. -/
def drop [DecidableEq α] (held : ι → List α) (i : ι) (a : α) : ι → List α :=
  Function.update held i ((held i).erase a)

variable {held : ι → List α} {i j : ι} {a b : α}

theorem mem_take : b ∈ take held i a j ↔ (j = i ∧ b = a) ∨ b ∈ held j := by
  unfold take
  by_cases hji : j = i
  · subst hji
    simp only [Function.update_self, List.mem_append, List.mem_singleton, true_and]
    exact or_comm
  · simp [hji]

omit [DecidableEq ι] in
theorem exclusive_nil : Exclusive fun _ : ι => ([] : List α) :=
  ⟨fun _ => List.nodup_nil, fun _ _ _ h => absurd h List.not_mem_nil⟩

/-- **Taking is exclusive** exactly when nobody held the thing. -/
theorem Exclusive.take_iff (h : Exclusive held) :
    Exclusive (take held i a) ↔ ∀ j, a ∉ held j := by
  constructor
  · intro hex j hj
    have hself : a ∈ take held i a i := mem_take.mpr (Or.inl ⟨rfl, rfl⟩)
    have hji : j = i := hex.owner j i a (mem_take.mpr (Or.inr hj)) hself
    subst hji
    have hdup := hex.nodup j
    rw [take, Function.update_self] at hdup
    exact (List.nodup_append.mp hdup).2.2 a hj a (List.mem_singleton_self a) rfl
  · intro hfree
    refine ⟨fun j => ?_, fun j k b hj hk => ?_⟩
    · unfold take
      by_cases hji : j = i
      · subst hji
        rw [Function.update_self]
        refine List.nodup_append.mpr ⟨h.nodup j, List.nodup_singleton a, fun b hb c hc => ?_⟩
        rw [List.mem_singleton.mp hc]
        rintro rfl
        exact hfree j hb
      · rw [Function.update_of_ne hji]
        exact h.nodup j
    · rcases mem_take.mp hj with ⟨rfl, rfl⟩ | hj'
      · rcases mem_take.mp hk with ⟨rfl, _⟩ | hk'
        · rfl
        · exact absurd hk' (hfree k)
      · rcases mem_take.mp hk with ⟨rfl, rfl⟩ | hk'
        · exact absurd hj' (hfree j)
        · exact h.owner j k b hj' hk'

variable [DecidableEq α]

theorem mem_of_mem_drop (h : b ∈ drop held i a j) : b ∈ held j := by
  unfold drop at h
  by_cases hji : j = i
  · subst hji
    rw [Function.update_self] at h
    exact List.mem_of_mem_erase h
  · rwa [Function.update_of_ne hji] at h

theorem mem_drop_of_ne (hne : b ≠ a) (h : b ∈ held j) : b ∈ drop held i a j := by
  unfold drop
  by_cases hji : j = i
  · subst hji
    rw [Function.update_self]
    exact (List.mem_erase_of_ne hne).mpr h
  · rwa [Function.update_of_ne hji]

/-- After its holder gave it up, nobody holds a thing. -/
theorem Exclusive.not_mem_drop (h : Exclusive held) (ha : a ∈ held i) (j : ι) :
    a ∉ drop held i a j := by
  unfold drop
  by_cases hji : j = i
  · subst hji
    rw [Function.update_self]
    exact (h.nodup j).not_mem_erase
  · rw [Function.update_of_ne hji]
    exact fun hj => hji (h.owner j i a hj ha)

theorem Exclusive.drop (h : Exclusive held) : Exclusive (drop held i a) where
  nodup j := by
    unfold Ownership.drop
    by_cases hji : j = i
    · subst hji
      rw [Function.update_self]
      exact (h.nodup j).erase a
    · rw [Function.update_of_ne hji]
      exact h.nodup j
  owner j k b hj hk := h.owner j k b (mem_of_mem_drop hj) (mem_of_mem_drop hk)

/-- `i` hands `a` to `j`. -/
def move (held : ι → List α) (i j : ι) (a : α) : ι → List α :=
  take (Ownership.drop held i a) j a

theorem move_source (h : i ≠ j) : move held i j a i = (held i).erase a := by
  rw [move, take, Function.update_of_ne h, Ownership.drop, Function.update_self]

theorem move_target (h : i ≠ j) : move held i j a j = held j ++ [a] := by
  rw [move, take, Function.update_self, Ownership.drop, Function.update_of_ne h.symm]

theorem move_other {k : ι} (hi : k ≠ i) (hj : k ≠ j) : move held i j a k = held k := by
  rw [move, take, Function.update_of_ne hj, Ownership.drop, Function.update_of_ne hi]

/-- **Moving is exclusive.** -/
theorem Exclusive.move (h : Exclusive held) (ha : a ∈ held i) : Exclusive (move held i j a) :=
  h.drop.take_iff.mpr (h.not_mem_drop ha)

/-- After a move, the thing is with its new holder and everything else where it was. -/
theorem Exclusive.mem_move (h : Exclusive held) (ha : a ∈ held i) {k : ι} :
    b ∈ Ownership.move held i j a k ↔ (k = j ∧ b = a) ∨ (b ≠ a ∧ b ∈ held k) := by
  unfold Ownership.move
  rw [mem_take]
  constructor
  · rintro (hnew | hold)
    · exact Or.inl hnew
    · refine Or.inr ⟨?_, mem_of_mem_drop hold⟩
      rintro rfl
      exact h.not_mem_drop ha k hold
  · rintro (hnew | ⟨hne, hold⟩)
    · exact Or.inl hnew
    · exact Or.inr (mem_drop_of_ne hne hold)

/-- A move does not change what is held by somebody. -/
theorem Exclusive.exists_mem_move (h : Exclusive held) (ha : a ∈ held i) :
    (∃ k, b ∈ Ownership.move held i j a k) ↔ ∃ k, b ∈ held k := by
  constructor
  · rintro ⟨k, hk⟩
    rcases (h.mem_move ha).mp hk with ⟨_, rfl⟩ | ⟨_, hold⟩
    · exact ⟨i, ha⟩
    · exact ⟨k, hold⟩
  · rintro ⟨k, hk⟩
    by_cases hb : b = a
    · exact ⟨j, (h.mem_move ha).mpr (Or.inl ⟨rfl, hb⟩)⟩
    · exact ⟨k, (h.mem_move ha).mpr (Or.inr ⟨hb, hk⟩)⟩

end TiiSel4Vm.Ownership
