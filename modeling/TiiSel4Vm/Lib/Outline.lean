import Mathlib.Data.List.Basic
import Mathlib.Data.List.TakeWhile
import Mathlib.Data.List.InsertIdx
import Mathlib.Tactic.Common

/-!
# Trees in document order

A tree written as the list of its nodes in the order in which they begin, each with its depth.  The
descendants of a node are the nodes after it down to the next one that is not deeper.

* `child?` — the first child of a node with a property, and `descend`, the walk along a path;
* `insertChild` — a new first child; `descend_insertChild` says that the walk to its parent is the
  same as before, `children_insertChild_of_lt` that the nodes before the parent keep their children;
* `modifyVal` — a change of one value; a function of the values need not see it (`modifyVal_map`).
-/

namespace TiiSel4Vm.Outlines

universe u v

/-- A node: its depth and what it carries. -/
structure Item (α : Type u) where
  depth : ℕ
  val : α

/-- The nodes of a tree in document order. -/
abbrev Outline (α : Type u) := List (Item α)

variable {α : Type u} {β : Type v}

def Item.map (f : α → β) (e : Item α) : Item β := ⟨e.depth, f e.val⟩

/-- What is below a node of depth `d` that is followed by `l`. -/
def below (d : ℕ) (l : Outline α) : Outline α := l.takeWhile fun e => d < e.depth

/-- The children of the `i`-th node. -/
def children (l : Outline α) (i : ℕ) : List α :=
  match l[i]? with
  | none => []
  | some e =>
      ((below e.depth (l.drop (i + 1))).filter fun c => c.depth = e.depth + 1).map Item.val

/-- The first child of the `i`-th node with the property `p`. -/
def child? (p : α → Bool) (l : Outline α) (i : ℕ) : Option ℕ :=
  match l[i]? with
  | none => none
  | some e =>
      ((below e.depth (l.drop (i + 1))).findIdx? fun c => c.depth = e.depth + 1 && p c.val).map
        (i + 1 + ·)

/-- The walk from the `i`-th node that takes the first child with each property in turn. -/
def descend (l : Outline α) : List (α → Bool) → ℕ → Option ℕ
  | [], i => some i
  | p :: ps, i => (child? p l i).bind (descend l ps)

/-- The `i`-th node gets a new first child. -/
def insertChild (l : Outline α) (i : ℕ) (x : α) : Outline α :=
  match l[i]? with
  | none => l
  | some e => l.take (i + 1) ++ ⟨e.depth + 1, x⟩ :: l.drop (i + 1)

/-- The value of the `i`-th node changes. -/
def modifyVal (l : Outline α) (i : ℕ) (f : α → α) : Outline α := l.modify i (Item.map f)

/-! ### Children -/

section Children

variable {l : Outline α} {p : α → Bool} {e : Item α} {i j k : ℕ} {x : α}

theorem children_of_getElem? (h : l[i]? = some e) :
    children l i
      = ((below e.depth (l.drop (i + 1))).filter fun c => c.depth = e.depth + 1).map Item.val := by
  simp only [children, h]

theorem child?_of_getElem? (h : l[i]? = some e) :
    child? p l i
      = ((below e.depth (l.drop (i + 1))).findIdx? fun c => c.depth = e.depth + 1 && p c.val).map
          (i + 1 + ·) := by
  simp only [child?, h]

theorem find?_children (h : l[i]? = some e) (p : α → Bool) :
    (children l i).find? p
      = ((below e.depth (l.drop (i + 1))).find? fun c => c.depth = e.depth + 1 && p c.val).map
          Item.val := by
  rw [children_of_getElem? h, List.find?_map, List.find?_filter]
  simp only [Function.comp_apply, Bool.decide_and, Bool.decide_eq_true]

/-- What a search finds is the first child with the property. -/
theorem child?_some (h : child? p l i = some j) :
    i < j ∧ ∃ d x, l[j]? = some ⟨d, x⟩ ∧ (children l i).find? p = some x := by
  cases hi : l[i]? with
  | none => simp [child?, hi] at h
  | some e =>
      rw [child?_of_getElem? hi, Option.map_eq_some_iff] at h
      obtain ⟨m, hm, rfl⟩ := h
      obtain ⟨hlt, -, -⟩ := List.findIdx?_eq_some_iff_getElem.mp hm
      obtain ⟨c, hc⟩ : ∃ c, (below e.depth (l.drop (i + 1)))[m] = c := ⟨_, rfl⟩
      have hprefix : below e.depth (l.drop (i + 1)) <+: l.drop (i + 1) :=
        List.takeWhile_prefix _
      have hget : l[i + 1 + m]? = some c := by
        rw [← List.getElem?_drop, ← hc, List.getElem?_eq_getElem (hlt.trans_le hprefix.length_le),
          hprefix.getElem hlt]
      have hfind : (below e.depth (l.drop (i + 1))).find?
          (fun c => c.depth = e.depth + 1 && p c.val) = some c := by
        rw [List.findIdx?_eq_some_iff_getElem] at hm
        obtain ⟨_, hp, hbefore⟩ := hm
        rw [List.find?_eq_some_iff_getElem, ← hc]
        refine ⟨hp, m, hlt, rfl, fun k hk => ?_⟩
        rw [Bool.not_eq_true', ← Bool.not_eq_true]
        exact hbefore k hk
      refine ⟨by omega, c.depth, c.val, hget, ?_⟩
      rw [find?_children hi, hfind]
      rfl

/-- A search that finds nothing has looked at every child. -/
theorem child?_none (h : child? p l i = none) : (children l i).find? p = none := by
  cases hi : l[i]? with
  | none => simp [children, hi]
  | some e =>
      rw [child?_of_getElem? hi, Option.map_eq_none_iff, List.findIdx?_eq_none_iff] at h
      rw [find?_children hi, Option.map_eq_none_iff, List.find?_eq_none]
      intro c hc
      rw [Bool.not_eq_true]
      exact h c hc

/-- A walk of one step. -/
theorem descend_singleton (l : Outline α) (p : α → Bool) (i : ℕ) :
    descend l [p] i = child? p l i :=
  Option.bind_fun_some _

theorem le_of_descend {ps : List (α → Bool)} (h : descend l ps k = some i) : k ≤ i := by
  induction ps generalizing k with
  | nil => exact (Option.some.inj h).le
  | cons p ps ih =>
      obtain ⟨j, hj, hrest⟩ := Option.bind_eq_some_iff.mp h
      exact (child?_some hj).1.le.trans (ih hrest)

/-! ### A new child -/

theorem insertChild_of_getElem? (h : l[i]? = some e) (x : α) :
    insertChild l i x = l.take (i + 1) ++ ⟨e.depth + 1, x⟩ :: l.drop (i + 1) := by
  simp only [insertChild, h]

/-- The nodes up to the parent stay where they are. -/
theorem getElem?_insertChild_of_le (x : α) (h : k ≤ i) : (insertChild l i x)[k]? = l[k]? := by
  cases hi : l[i]? with
  | none => simp only [insertChild, hi]
  | some e =>
      have hlt : i < l.length := (List.getElem?_eq_some_iff.mp hi).1
      rw [insertChild_of_getElem? hi, List.getElem?_append_left (by rw [List.length_take]; omega),
        List.getElem?_take_of_lt (by omega)]

/-- What follows a node up to the parent. -/
theorem drop_insertChild (h : l[i]? = some e) (x : α) (hk : k ≤ i) :
    (insertChild l i x).drop (k + 1)
      = (l.drop (k + 1)).take (i - k) ++ ⟨e.depth + 1, x⟩ :: l.drop (i + 1) := by
  have hlt : i < l.length := (List.getElem?_eq_some_iff.mp h).1
  have hsplit : i + 1 - (k + 1) = i - k := by omega
  rw [insertChild_of_getElem? h, List.drop_append_of_le_length (by rw [List.length_take]; omega),
    List.drop_take, hsplit]

/-- What follows the parent. -/
theorem drop_insertChild_self (h : l[i]? = some e) (x : α) :
    (insertChild l i x).drop (i + 1) = ⟨e.depth + 1, x⟩ :: l.drop (i + 1) := by
  rw [drop_insertChild h x le_rfl, Nat.sub_self, List.take_zero, List.nil_append]

/-- The parent stays. -/
theorem getElem?_insertChild_self (h : l[i]? = some e) (x : α) :
    (insertChild l i x)[i]? = some e := by
  rw [getElem?_insertChild_of_le x le_rfl, h]

/-- The new node. -/
theorem getElem?_insertChild (h : l[i]? = some e) (x : α) :
    (insertChild l i x)[i + 1]? = some ⟨e.depth + 1, x⟩ := by
  rw [← Nat.add_zero (i + 1), ← List.getElem?_drop, drop_insertChild_self h x]
  rfl

/-- **The parent has one child more.** -/
theorem children_insertChild (h : l[i]? = some e) (x : α) :
    children (insertChild l i x) i = x :: children l i := by
  rw [children_of_getElem? (getElem?_insertChild_self h x), children_of_getElem? h,
    drop_insertChild_self h x, below, List.takeWhile_cons_of_pos (by simp),
    List.filter_cons_of_pos (by simp), List.map_cons]
  rfl

theorem insertChild_perm (h : l[i]? = some e) (x : α) :
    (insertChild l i x).Perm (⟨e.depth + 1, x⟩ :: l) := by
  rw [insertChild_of_getElem? h]
  refine List.perm_middle.trans ?_
  rw [List.take_append_drop]

/-- What a search finds before `m` it finds whatever follows. -/
theorem findIdx?_takeWhile_take {γ : Type u} {q r : γ → Bool} {xs : List γ} {m n : ℕ}
    (ys : List γ) (h : (xs.takeWhile q).findIdx? r = some m) (hn : m < n) :
    ((xs.take n ++ ys).takeWhile q).findIdx? r = some m := by
  induction xs generalizing m n with
  | nil => simp at h
  | cons x xs ih =>
      cases n with
      | zero => exact absurd hn (Nat.not_lt_zero m)
      | succ n =>
          cases hq : q x with
          | false => simp [hq] at h
          | true =>
              rw [List.takeWhile_cons_of_pos hq, List.findIdx?_cons] at h
              rw [List.take_succ_cons, List.cons_append, List.takeWhile_cons_of_pos hq,
                List.findIdx?_cons]
              cases hr : r x with
              | true =>
                  rw [hr] at h
                  exact h
              | false =>
                  rw [hr] at h
                  simp only [Bool.false_eq_true, if_false, Option.map_eq_some_iff] at h ⊢
                  obtain ⟨m', hm', rfl⟩ := h
                  exact ⟨m', ih hm' (by omega), rfl⟩

/-- A search that ends at the parent or before it is the same as before. -/
theorem child?_insertChild (h : child? p l k = some j) (hji : j ≤ i) (x : α) :
    child? p (insertChild l i x) k = some j := by
  cases hi : l[i]? with
  | none => simpa only [insertChild, hi] using h
  | some e =>
      cases hk : l[k]? with
      | none => simp [child?, hk] at h
      | some c =>
          rw [child?_of_getElem? hk, Option.map_eq_some_iff] at h
          obtain ⟨m, hm, rfl⟩ := h
          have hget : (insertChild l i x)[k]? = some c := by
            rw [getElem?_insertChild_of_le x (by omega), hk]
          rw [child?_of_getElem? hget, drop_insertChild hi x (by omega), below,
            findIdx?_takeWhile_take _ hm (by omega)]
          rfl

/-- **The walk to the parent is the same as before.** -/
theorem descend_insertChild {ps : List (α → Bool)} (h : descend l ps k = some i) (x : α) :
    descend (insertChild l i x) ps k = some i := by
  induction ps generalizing k with
  | nil => exact h
  | cons p ps ih =>
      obtain ⟨j, hj, hrest⟩ := Option.bind_eq_some_iff.mp h
      exact Option.bind_eq_some_iff.mpr
        ⟨j, child?_insertChild hj (le_of_descend hrest) x, ih hrest⟩

/-- A search that the new child does not end goes on behind it. -/
theorem child?_insertChild_self (h : l[i]? = some e) (hx : p x = false) :
    child? p (insertChild l i x) i = (child? p l i).map (· + 1) := by
  rw [child?_of_getElem? (getElem?_insertChild_self h x), child?_of_getElem? h,
    drop_insertChild_self h x, below, List.takeWhile_cons_of_pos (by simp), List.findIdx?_cons, hx,
    Bool.and_false, if_neg (by simp), Option.map_map, Option.map_map]
  rfl

/-- The nodes behind the new child have their children. -/
theorem children_insertChild_succ (h : l[i]? = some e) (x : α) (hij : i < j) :
    children (insertChild l i x) (j + 1) = children l j := by
  have hdrop : ∀ k, i < k → (insertChild l i x).drop (k + 1) = l.drop k := by
    intro k hk
    obtain ⟨m, rfl⟩ := Nat.exists_eq_add_of_lt hk
    have hsplit : i + m + 1 + 1 = i + 1 + (m + 1) := by omega
    rw [hsplit, ← List.drop_drop, drop_insertChild_self h x, List.drop_succ_cons, List.drop_drop,
      Nat.add_right_comm]
  have hget : (insertChild l i x)[j + 1]? = l[j]? := by
    rw [← Nat.add_zero (j + 1), ← List.getElem?_drop, hdrop j hij, List.getElem?_drop, Nat.add_zero]
  cases hj : l[j]? with
  | none => simp only [children, hget, hj]
  | some c => rw [children_of_getElem? (hget.trans hj), children_of_getElem? hj, hdrop _ (by omega)]

/-- A walk ends at a node. -/
theorem lt_length_of_descend {ps : List (α → Bool)} (hps : ps ≠ []) (h : descend l ps k = some i) :
    i < l.length := by
  induction ps generalizing k with
  | nil => exact absurd rfl hps
  | cons p ps ih =>
      obtain ⟨j, hj, hrest⟩ := Option.bind_eq_some_iff.mp h
      cases ps with
      | nil =>
          obtain ⟨-, d, x, hget, -⟩ := child?_some hj
          cases hrest
          exact (List.getElem?_eq_some_iff.mp hget).1
      | cons q qs => exact ih (List.cons_ne_nil q qs) hrest

end Children

/-! ### Functions of the values -/

section Values

variable {l : Outline α} {g : α → β} {i : ℕ}

theorem getElem?_map_item (g : α → β) {e : Item α} (h : l[i]? = some e) :
    (l.map (Item.map g))[i]? = some (e.map g) := by
  rw [List.getElem?_map, h]
  rfl

theorem below_map (g : α → β) (d : ℕ) (l : Outline α) :
    below d (l.map (Item.map g)) = (below d l).map (Item.map g) := by
  rw [below, List.takeWhile_map]
  rfl

theorem children_map (g : α → β) (l : Outline α) (i : ℕ) :
    children (l.map (Item.map g)) i = (children l i).map g := by
  cases hi : l[i]? with
  | none => simp [children, hi]
  | some e =>
      have hget := getElem?_map_item g hi
      rw [children_of_getElem? hget, children_of_getElem? hi, ← List.map_drop, below_map,
        List.filter_map, List.map_map, List.map_map]
      rfl

theorem child?_map (g : α → β) (p : β → Bool) (l : Outline α) (i : ℕ) :
    child? p (l.map (Item.map g)) i = child? (fun x => p (g x)) l i := by
  cases hi : l[i]? with
  | none => simp [child?, hi]
  | some e =>
      have hget := getElem?_map_item g hi
      rw [child?_of_getElem? hget, child?_of_getElem? hi, ← List.map_drop, below_map,
        List.findIdx?_map]
      rfl

theorem insertChild_map (g : α → β) (l : Outline α) (i : ℕ) (x : α) :
    (insertChild l i x).map (Item.map g) = insertChild (l.map (Item.map g)) i (g x) := by
  cases hi : l[i]? with
  | none => simp [insertChild, hi]
  | some e =>
      have hget := getElem?_map_item g hi
      rw [insertChild_of_getElem? hi, insertChild_of_getElem? hget, List.map_append, List.map_cons,
        List.map_take, List.map_drop]
      rfl

/-- What a function does not see of a change. -/
theorem modifyVal_map {f : α → α} (h : ∀ x, g (f x) = g x) (l : Outline α) (i : ℕ) :
    (modifyVal l i f).map (Item.map g) = l.map (Item.map g) := by
  refine List.ext_getElem? fun k => ?_
  rw [List.getElem?_map, List.getElem?_map, modifyVal]
  by_cases hk : i = k
  · subst hk
    rw [List.getElem?_modify_eq]
    cases l[i]? with
    | none => rfl
    | some e => exact congrArg (fun y => some (Item.mk e.depth y)) (h e.val)
  · rw [List.getElem?_modify_ne _ _ hk]

/-- A new child is changed at once. -/
theorem modifyVal_insertChild {e : Item α} (h : l[i]? = some e) (x : α) (f : α → α) :
    modifyVal (insertChild l i x) (i + 1) f = insertChild l i (f x) := by
  have hlt : i < l.length := (List.getElem?_eq_some_iff.mp h).1
  have hlen : (l.take (i + 1)).length = i + 1 := by
    rw [List.length_take]
    omega
  have hmodify := List.modifyTailIdx_add (List.modifyHead (Item.map f)) 0 (l.take (i + 1))
    (⟨e.depth + 1, x⟩ :: l.drop (i + 1))
  rw [hlen] at hmodify
  rw [insertChild_of_getElem? h, insertChild_of_getElem? h]
  exact hmodify

end Values

/-! ### The other nodes -/

section Others

variable {l : Outline α} {p : α → Bool} {e : Item α} {i k : ℕ}

/-- Where the `k`-th node is when the `i`-th has got a new first child. -/
def shift (i k : ℕ) : ℕ := if i < k then k + 1 else k

theorem shift_of_le (h : k ≤ i) : shift i k = k := if_neg (not_lt.mpr h)

theorem shift_of_lt (h : i < k) : shift i k = k + 1 := if_pos h

/-- What is below a node before the parent: the new child, if the parent is. -/
theorem below_insertChild (hi : l[i]? = some e) (x : α) (d : ℕ) (hk : k < i) :
    (below d ((insertChild l i x).drop (k + 1)) = below d (l.drop (k + 1)) ∧
        (below d (l.drop (k + 1))).length ≤ i - k) ∨
      d < e.depth ∧ ∃ u v, u.length = i - k ∧ below d (l.drop (k + 1)) = u ++ v ∧
        below d ((insertChild l i x).drop (k + 1)) = u ++ ⟨e.depth + 1, x⟩ :: v := by
  have hlt : i < l.length := (List.getElem?_eq_some_iff.mp hi).1
  obtain ⟨u, hu⟩ : ∃ u, (l.drop (k + 1)).take (i - k) = u := ⟨_, rfl⟩
  have hlen : u.length = i - k := by
    rw [← hu, List.length_take, List.length_drop]
    omega
  have hsplit : l.drop (k + 1) = u ++ l.drop (i + 1) := by
    have hindex : k + 1 + (i - k) = i + 1 := by omega
    rw [← hu, ← hindex, ← List.drop_drop (j := k + 1), List.take_append_drop]
  have hparent : e ∈ u := by
    have hget : u[i - k - 1]? = some e := by
      have hindex : k + 1 + (i - k - 1) = i := by omega
      rw [← hu, List.getElem?_take_of_lt (by omega), List.getElem?_drop, hindex, hi]
    exact List.mem_of_getElem? hget
  rw [drop_insertChild hi x hk.le, hu, hsplit, below, below, List.takeWhile_append,
    List.takeWhile_append]
  by_cases hall : (u.takeWhile fun e => d < e.depth).length = u.length
  · -- the parent is below the node, and the new child is deeper
    have hself : u.takeWhile (fun e => decide (d < e.depth)) = u :=
      (List.takeWhile_prefix _).eq_of_length hall
    have hdeep : d < e.depth := by
      have hmem := List.mem_takeWhile_imp (hself.symm ▸ hparent)
      exact of_decide_eq_true hmem
    rw [if_pos hall, if_pos hall, List.takeWhile_cons_of_pos (by simp; omega)]
    exact Or.inr ⟨hdeep, u, _, hlen, rfl, rfl⟩
  · rw [if_neg hall, if_neg hall, ← hlen]
    exact Or.inl ⟨rfl, (List.takeWhile_prefix _).length_le⟩

/-- **The other nodes keep their children.** -/
theorem children_insertChild_of_lt (hi : l[i]? = some e) (x : α) (hk : k < i) :
    children (insertChild l i x) k = children l k := by
  have hget := getElem?_insertChild_of_le (l := l) x hk.le
  cases hc : l[k]? with
  | none => simp only [children, hget, hc]
  | some c =>
      rw [children_of_getElem? (hget.trans hc), children_of_getElem? hc]
      rcases below_insertChild hi x c.depth hk with ⟨hbelow, -⟩ | ⟨hdeep, u, v, -, hbelow, hbelow'⟩
      · rw [hbelow]
      · rw [hbelow', hbelow, List.filter_append, List.filter_append,
          List.filter_cons_of_neg (by simp; omega)]

/-- A search among other children finds the same node. -/
theorem child?_insertChild_of_lt (hi : l[i]? = some e) (x : α) (hk : k < i) :
    child? p (insertChild l i x) k = (child? p l k).map (shift i) := by
  have hget := getElem?_insertChild_of_le (l := l) x hk.le
  cases hc : l[k]? with
  | none => simp only [child?, hget, hc, Option.map_none]
  | some c =>
      rw [child?_of_getElem? (hget.trans hc), child?_of_getElem? hc, Option.map_map]
      rcases below_insertChild hi x c.depth hk with
        ⟨hbelow, hlen⟩ | ⟨hdeep, u, v, hlen, hbelow, hbelow'⟩
      · rw [hbelow]
        refine Option.map_congr fun m hm => ?_
        have hm' := (List.findIdx?_eq_some_iff_getElem.mp hm).1
        exact (shift_of_le (by omega)).symm
      · rw [hbelow', hbelow, List.findIdx?_append, List.findIdx?_append, List.findIdx?_cons,
          if_neg (by simp; omega)]
        cases hu : u.findIdx? fun a => decide (a.depth = c.depth + 1) && p a.val with
        | some m =>
            have hm := (List.findIdx?_eq_some_iff_getElem.mp hu).1
            exact congrArg some (shift_of_le (by dsimp only; omega)).symm
        | none =>
            rw [Option.none_or, Option.none_or, Option.map_map, Option.map_map, Option.map_map]
            refine congrArg (Option.map · _) (funext fun m => ?_)
            have hshift := shift_of_lt (i := i) (k := k + 1 + (m + u.length)) (by omega)
            simp only [Function.comp_apply, hshift]
            omega

/-- New first children, the last one in front. -/
def insertChildren (l : Outline α) (i : ℕ) (xs : List α) : Outline α :=
  xs.foldl (fun l x => insertChild l i x) l

theorem children_insertChildren (hi : l[i]? = some e) (xs : List α) :
    children (insertChildren l i xs) i = xs.reverse ++ children l i := by
  induction xs generalizing l with
  | nil => rfl
  | cons x xs ih =>
      show children (insertChildren (insertChild l i x) i xs) i = _
      rw [ih (getElem?_insertChild_self hi x), children_insertChild hi, List.reverse_cons,
        List.append_assoc]
      rfl

theorem descend_insertChildren {ps : List (α → Bool)} (h : descend l ps k = some i)
    (xs : List α) : descend (insertChildren l i xs) ps k = some i := by
  induction xs generalizing l with
  | nil => exact h
  | cons x xs ih => exact ih (descend_insertChild h x)

theorem insertChildren_map (g : α → β) (l : Outline α) (i : ℕ) (xs : List α) :
    (insertChildren l i xs).map (Item.map g)
      = insertChildren (l.map (Item.map g)) i (xs.map g) := by
  induction xs generalizing l with
  | nil => rfl
  | cons x xs ih =>
      show (insertChildren (insertChild l i x) i xs).map _ = _
      rw [ih, insertChild_map]
      rfl

end Others

end TiiSel4Vm.Outlines
