import Mathlib.Data.Finset.Card
import Mathlib.Data.List.Basic
import Mathlib.Data.List.Infix
import Mathlib.Tactic.Common

/-!
# Interning

A table of keys, each of which gets the place where it is first recorded.  `record` looks a key up
and adds it at the end if it is not there; `recordAll` does so for keys in turn.

* `place_recordAll` — a recorded key keeps its place, and `place_inj`, its own;
* `length_recordAll` — the table is as long as there are keys.
-/

namespace TiiSel4Vm.Interning

universe u

variable {α : Type u} [DecidableEq α]

/-- Where `x` is; the end of the table if it is not recorded. -/
def place (l : List α) (x : α) : ℕ := l.idxOf x

/-- The table with `x` in it. -/
def record (l : List α) (x : α) : List α := if x ∈ l then l else l ++ [x]

/-- The table with each of `xs` in it, recorded in turn. -/
def recordAll (l : List α) (xs : List α) : List α := xs.foldl record l

variable {l xs : List α} {x y : α}

theorem record_of_mem (h : x ∈ l) : record l x = l := if_pos h

theorem record_of_not_mem (h : x ∉ l) : record l x = l ++ [x] := if_neg h

theorem recordAll_cons (l : List α) (x : α) (xs : List α) :
    recordAll l (x :: xs) = recordAll (record l x) xs := rfl

theorem mem_record : y ∈ record l x ↔ y ∈ l ∨ y = x := by
  by_cases hx : x ∈ l
  · rw [record_of_mem hx]
    constructor
    · exact Or.inl
    · rintro (hy | rfl)
      · exact hy
      · exact hx
  · rw [record_of_not_mem hx, List.mem_append, List.mem_singleton]

theorem prefix_record (l : List α) (x : α) : l <+: record l x := by
  by_cases hx : x ∈ l
  · rw [record_of_mem hx]
  · rw [record_of_not_mem hx]
    exact List.prefix_append l [x]

theorem nodup_record (h : l.Nodup) (x : α) : (record l x).Nodup := by
  by_cases hx : x ∈ l
  · rw [record_of_mem hx]
    exact h
  · rw [record_of_not_mem hx, ← List.concat_eq_append]
    exact h.concat hx

/-! ### Places -/

theorem place_cons_self (x : α) (l : List α) : place (x :: l) x = 0 := List.idxOf_cons_self

theorem place_cons_of_ne (h : x ≠ y) (l : List α) : place (y :: l) x = place l x + 1 :=
  List.idxOf_cons_ne l h.symm

theorem place_of_not_mem (h : x ∉ l) : place l x = l.length := List.idxOf_eq_length h

theorem place_lt (h : x ∈ l) : place l x < l.length := List.idxOf_lt_length_of_mem h

theorem getElem?_place (h : x ∈ l) : l[place l x]? = some x := List.getElem?_idxOf h

/-- Every recorded key has a place of its own. -/
theorem place_inj (h : x ∈ l) : place l x = place l y ↔ x = y := List.idxOf_inj h

/-- A key gets the place where it is looked up. -/
theorem place_record (l : List α) (x : α) : place (record l x) x = place l x := by
  by_cases hx : x ∈ l
  · rw [record_of_mem hx]
  · rw [record_of_not_mem hx, place_of_not_mem hx, place, List.idxOf_append_of_notMem hx,
      List.idxOf_cons_self, Nat.add_zero]

/-! ### Keys in turn -/

theorem mem_recordAll : y ∈ recordAll l xs ↔ y ∈ l ∨ y ∈ xs := by
  induction xs generalizing l with
  | nil => simp [recordAll]
  | cons x xs ih => rw [recordAll_cons, ih, mem_record, List.mem_cons, or_assoc]

theorem prefix_recordAll (l xs : List α) : l <+: recordAll l xs := by
  induction xs generalizing l with
  | nil => exact List.prefix_refl l
  | cons x xs ih => exact (prefix_record l x).trans (ih (record l x))

/-- No key is recorded twice. -/
theorem nodup_recordAll (h : l.Nodup) (xs : List α) : (recordAll l xs).Nodup := by
  induction xs generalizing l with
  | nil => exact h
  | cons x xs ih => exact ih (nodup_record h x)

/-- A recorded key keeps its place. -/
theorem place_recordAll (h : x ∈ l) (xs : List α) : place (recordAll l xs) x = place l x := by
  obtain ⟨rest, hrest⟩ := prefix_recordAll l xs
  rw [← hrest, place, List.idxOf_append_of_mem h, place]

/-- The table is as long as there are keys. -/
theorem length_recordAll (h : l.Nodup) (xs : List α) :
    (recordAll l xs).length = (l ++ xs).toFinset.card := by
  rw [← List.toFinset_card_of_nodup (nodup_recordAll h xs)]
  congr 1
  ext y
  rw [List.mem_toFinset, List.mem_toFinset, mem_recordAll, List.mem_append]

end TiiSel4Vm.Interning
