import Mathlib.Data.Finset.Card
import TiiSel4Vm.Lib.Interning
import TiiSel4Vm.Lib.Transition

/-!
# Trace points

`trace_index` gives a string its index in `trace_names`.  The search starts at index 1, since the
`trace` macro takes 0 for a point that has no index yet, but the counter starts at 0.

* `traceCalls_behind` — from the second call on the table behind its first entry is an intern table;
* `trace_index_interns_iff` — what that makes of a sequence of calls from the empty table;
* `trace_points_settle` — what the points of the macro see of it.
-/

namespace TiiSel4Vm.Trace

open TiiSel4Vm.Interning TiiSel4Vm.Transition

/-! ### Strings -/

/-- A C string: its bytes before the NUL. -/
abbrev CString := List {byte : BitVec 8 // byte ≠ 0#8}

/-- `strcmp`. -/
def strcmp : CString → CString → ℤ
  | [], [] => 0
  | [], b :: _ => -b.val.toNat
  | a :: _, [] => a.val.toNat
  | a :: s, b :: s' => if a.val = b.val then strcmp s s' else (a.val.toNat : ℤ) - b.val.toNat

theorem strcmp_eq_zero_iff {s s' : CString} : strcmp s s' = 0 ↔ s = s' := by
  have hpos : ∀ a : {byte : BitVec 8 // byte ≠ 0#8}, 0 < a.val.toNat := by
    intro a
    rcases Nat.eq_zero_or_pos a.val.toNat with hzero | hpos
    · exact absurd (BitVec.eq_of_toNat_eq hzero) a.property
    · exact hpos
  induction s generalizing s' with
  | nil =>
      cases s' with
      | nil => exact iff_of_true rfl rfl
      | cons b s' =>
          have hb := hpos b
          simp only [strcmp, reduceCtorEq, iff_false]
          omega
  | cons a s ih =>
      cases s' with
      | nil =>
          have ha := hpos a
          simp only [strcmp, reduceCtorEq, iff_false]
          omega
      | cons b s' =>
          rw [strcmp, List.cons.injEq, Subtype.ext_iff]
          by_cases hab : a.val = b.val
          · simp only [hab, if_true, true_and]
            exact ih
          · have hne : a.val.toNat ≠ b.val.toNat := fun h => hab (BitVec.eq_of_toNat_eq h)
            simp only [hab, if_false, false_and, iff_false]
            omega

/-! ### The table -/

/-- `TRACE_POINT_MAX`. -/
abbrev tracePointMax : ℕ := 256

/-- `trace_names`, as far as it is filled; `trace_names_count` is the length. -/
structure TraceNames where
  names : List CString
  count_le : names.length ≤ tracePointMax

/-- The table before the first call. -/
def TraceNames.initial : TraceNames := ⟨[], Nat.zero_le _⟩

/-- The loop of `trace_index` from index `i` on, before the names at `i`, …. -/
def findName (str : CString) : ℕ → List CString → Option ℕ
  | _, [] => none
  | i, name :: names => if strcmp str name = 0 then some i else findName str (i + 1) names

theorem count_lt {t : TraceNames} (h : t.names.length ≠ tracePointMax) (str : CString) :
    (t.names ++ [str]).length ≤ tracePointMax := by
  rw [List.length_append]
  exact lt_of_le_of_ne t.count_le h

/-- `trace_index`; `none` is the fatal "Too many trace points". -/
def traceIndex (str : CString) (t : TraceNames) : Option (ℕ × TraceNames) :=
  match findName str 1 (t.names.drop 1) with
  | some i => some (i, t)
  | none =>
      if h : t.names.length = tracePointMax then none
      else some (t.names.length, ⟨t.names ++ [str], count_lt h str⟩)

/-- Calls of `trace_index` in turn: the indices they return, and the table. -/
def traceCalls : List CString → TraceNames → Option (List ℕ × TraceNames)
  | [], t => some ([], t)
  | str :: strs, t =>
      match traceIndex str t with
      | none => none
      | some (i, t') => (traceCalls strs t').map fun r => (i :: r.1, r.2)

/-! ### Behind the first entry -/

theorem findName_eq (str : CString) (i : ℕ) (names : List CString) :
    findName str i names = if str ∈ names then some (i + place names str) else none := by
  induction names generalizing i with
  | nil => rfl
  | cons name names ih =>
      rw [findName]
      by_cases h : str = name
      · rw [if_pos (strcmp_eq_zero_iff.mpr h), if_pos (h ▸ List.mem_cons_self), h, place_cons_self,
          Nat.add_zero]
      · rw [if_neg (mt strcmp_eq_zero_iff.mp h), ih, place_cons_of_ne h]
        simp only [List.mem_cons, h, false_or, Nat.add_succ, Nat.succ_add, Nat.add_zero]

/-- A table whose first entry is `first`, with `l` behind it. -/
def TraceNames.behind (first : CString) (l : List CString) (h : l.length < tracePointMax) :
    TraceNames := ⟨first :: l, h⟩

section Behind

variable {first str : CString} {l l' strs : List CString}

theorem TraceNames.behind_congr (heq : l = l') (h : l.length < tracePointMax)
    (h' : l'.length < tracePointMax) :
    TraceNames.behind first l h = TraceNames.behind first l' h' := by
  subst heq
  rfl

theorem traceIndex_found {t : TraceNames} {i : ℕ}
    (h : findName str 1 (t.names.drop 1) = some i) : traceIndex str t = some (i, t) := by
  rw [traceIndex, h]

theorem traceIndex_new {t : TraceNames} (h : findName str 1 (t.names.drop 1) = none)
    (hroom : t.names.length ≠ tracePointMax) :
    traceIndex str t = some (t.names.length, ⟨t.names ++ [str], count_lt hroom str⟩) := by
  rw [traceIndex, h]
  exact dif_neg hroom

/-- **A call on a table with a first entry** interns the string behind it. -/
theorem traceIndex_behind (h : l.length < tracePointMax)
    (hlt : (record l str).length < tracePointMax) :
    traceIndex str (.behind first l h)
      = some (1 + place (record l str) str, .behind first (record l str) hlt) := by
  have hfind := findName_eq str 1 l
  rw [place_record]
  by_cases hmem : str ∈ l
  · rw [if_pos hmem] at hfind
    rw [traceIndex_found hfind, TraceNames.behind_congr (record_of_mem hmem) hlt h]
  · rw [if_neg hmem] at hfind
    have happend := record_of_not_mem hmem
    have hroom : (first :: l).length ≠ tracePointMax := by
      rw [happend, List.length_append, List.length_singleton] at hlt
      rw [List.length_cons]
      omega
    rw [traceIndex_new hfind hroom, place_of_not_mem hmem,
      TraceNames.behind_congr happend hlt (happend ▸ hlt)]
    exact congrArg some (Prod.ext (Nat.add_comm l.length 1) rfl)

/-- **Calls on a table with a first entry.** -/
theorem traceCalls_behind (h : l.length < tracePointMax)
    (hlt : (recordAll l strs).length < tracePointMax) :
    traceCalls strs (.behind first l h)
      = some (strs.map fun str => 1 + place (recordAll l strs) str,
          .behind first (recordAll l strs) hlt) := by
  induction strs generalizing l with
  | nil => rfl
  | cons str strs ih =>
      have hlt' : (record l str).length < tracePointMax :=
        lt_of_le_of_lt (prefix_recordAll (record l str) strs).length_le hlt
      have hmem : str ∈ record l str := mem_record.mpr (Or.inr rfl)
      have hplace := place_recordAll hmem strs
      simp only [traceCalls, traceIndex_behind h hlt', ih hlt' hlt, Option.map_some, List.map_cons,
        ← hplace]
      rfl

end Behind

/-! ### What is promised of the indices -/

/-- What a call can do. -/
theorem traceIndex_cases {str : CString} {t t' : TraceNames} {i : ℕ}
    (h : traceIndex str t = some (i, t')) :
    (str ∈ t.names.tail ∧ i = 1 + place t.names.tail str ∧ t' = t) ∨
      (str ∉ t.names.tail ∧ i = t.names.length ∧ t'.names = t.names ++ [str]) := by
  have hfind := findName_eq str 1 (t.names.drop 1)
  rw [← List.drop_one]
  by_cases hmem : str ∈ t.names.drop 1
  · rw [if_pos hmem] at hfind
    rw [traceIndex_found hfind] at h
    cases h
    exact Or.inl ⟨hmem, rfl, rfl⟩
  · rw [if_neg hmem] at hfind
    by_cases hroom : t.names.length = tracePointMax
    · rw [traceIndex, hfind] at h
      exact absurd ((dif_pos hroom).symm.trans h) (Option.some_ne_none _).symm
    · rw [traceIndex_new hfind hroom] at h
      cases h
      exact Or.inr ⟨hmem, rfl, rfl⟩

/-- No entry changes. -/
theorem traceIndex_extends {str : CString} {t t' : TraceNames} {i : ℕ}
    (h : traceIndex str t = some (i, t')) : t.names <+: t'.names := by
  rcases traceIndex_cases h with ⟨-, -, rfl⟩ | ⟨-, -, hnames⟩
  · exact List.prefix_refl _
  · rw [hnames]
    exact List.prefix_append _ _

theorem traceCalls_extends {strs : List CString} {t t' : TraceNames} {indices : List ℕ}
    (h : traceCalls strs t = some (indices, t')) : t.names <+: t'.names := by
  induction strs generalizing t indices with
  | nil =>
      cases h
      exact List.prefix_refl _
  | cons str strs ih =>
      rw [traceCalls] at h
      split at h
      · cases h
      · rename_i i t₁ hcall
        obtain ⟨⟨is, t₂⟩, hcalls, heq⟩ := Option.map_eq_some_iff.mp h
        cases heq
        exact (traceIndex_extends hcall).trans (ih hcalls)

/-- What is at an index stays there. -/
theorem getElem?_extends {names names' : List CString} (h : names <+: names') {i : ℕ}
    {str : CString} (hstr : names[i]? = some str) : names'[i]? = some str := by
  obtain ⟨rest, rfl⟩ := h
  rw [List.getElem?_append_left (List.getElem?_eq_some_iff.mp hstr).1, hstr]

/-- The calls on `strs` returned `indices` and left `t`: the indices are in range, two of them are
the same exactly if their strings are, and the entry at each is its string, from then on. -/
structure Interned (strs : List CString) (indices : List ℕ) (t : TraceNames) : Prop where
  length_eq : indices.length = strs.length
  range : ∀ i ∈ indices, 1 ≤ i ∧ i < tracePointMax
  same : ∀ c ∈ strs.zip indices, ∀ c' ∈ strs.zip indices, c.2 = c'.2 ↔ c.1 = c'.1
  kept : ∀ later is t', traceCalls later t = some (is, t') →
    ∀ c ∈ strs.zip indices, t'.names[c.2]? = some c.1

/-- All calls on `strs` return, and what is promised of the indices holds. -/
def Interns (strs : List CString) (t : TraceNames) : Prop :=
  ∃ indices t', traceCalls strs t = some (indices, t') ∧ Interned strs indices t'

/-- The calls behind a first entry keep the promise. -/
theorem interns_behind {first : CString} {l strs : List CString} (h : l.length < tracePointMax)
    (hlt : (recordAll l strs).length < tracePointMax) : Interns strs (.behind first l h) := by
  have hcall : ∀ c ∈ strs.zip (strs.map fun str => 1 + place (recordAll l strs) str),
      c.1 ∈ recordAll l strs ∧ c.2 = 1 + place (recordAll l strs) c.1 := by
    intro c hc
    rw [List.zip_eq_zipWith, List.zipWith_map_right, List.zipWith_self] at hc
    obtain ⟨str, hstr, rfl⟩ := List.mem_map.mp hc
    exact ⟨mem_recordAll.mpr (Or.inr hstr), rfl⟩
  refine ⟨_, _, traceCalls_behind h hlt, List.length_map _, ?_, ?_, ?_⟩
  · intro i hi
    obtain ⟨str, hstr, rfl⟩ := List.mem_map.mp hi
    have hplace := place_lt (mem_recordAll (l := l).mpr (Or.inr hstr))
    omega
  · intro c hc c' hc'
    obtain ⟨hmem, hidx⟩ := hcall c hc
    obtain ⟨-, hidx'⟩ := hcall c' hc'
    rw [hidx, hidx', Nat.add_left_cancel_iff]
    exact place_inj hmem
  · intro later is t' hlater c hc
    obtain ⟨hmem, hidx⟩ := hcall c hc
    have hentry : (first :: recordAll l strs)[c.2]? = some c.1 := by
      rw [hidx, Nat.add_comm, List.getElem?_cons_succ]
      exact getElem?_place hmem
    exact getElem?_extends (traceCalls_extends hlater) hentry

/-- The first call on the empty table. -/
theorem traceIndex_initial (str : CString) :
    ∃ h, traceIndex str .initial = some (0, .behind str [] h) :=
  ⟨by decide, rfl⟩

/-- The first call does not keep it. -/
theorem not_interns_initial (first : CString) (rest : List CString) :
    ¬ Interns (first :: rest) .initial := by
  rintro ⟨indices, t', hcalls, hinterned⟩
  obtain ⟨h, hfirst⟩ := traceIndex_initial first
  rw [traceCalls, hfirst] at hcalls
  obtain ⟨r, -, heq⟩ := Option.map_eq_some_iff.mp hcalls
  cases heq
  exact absurd (hinterned.range 0 List.mem_cons_self).1 (by decide)

theorem interns_nil (t : TraceNames) : Interns [] t :=
  ⟨[], t, rfl, rfl, by simp, by simp, by simp⟩

/-- **When the promise is kept.**  With at most `TRACE_POINT_MAX - 1` strings: never from the first
call on, which returns 0, and always from the second. -/
theorem trace_index_interns_iff (strs : List CString)
    (hdistinct : strs.toFinset.card ≤ tracePointMax - 1) :
    (Interns strs .initial ↔ strs = []) ∧
      ∀ first rest, strs = first :: rest →
        ∃ t, traceIndex first .initial = some (0, t) ∧ Interns rest t := by
  refine ⟨⟨fun hinterns => ?_, fun hnil => ?_⟩, ?_⟩
  · cases strs with
    | nil => rfl
    | cons first rest => exact absurd hinterns (not_interns_initial first rest)
  · rw [hnil]
    exact interns_nil .initial
  · rintro first rest rfl
    obtain ⟨h, hfirst⟩ := traceIndex_initial first
    have hle : rest.toFinset.card ≤ (first :: rest).toFinset.card := by
      rw [List.toFinset_cons]
      exact Finset.card_le_card (Finset.subset_insert first rest.toFinset)
    refine ⟨_, hfirst, interns_behind h ?_⟩
    rw [length_recordAll List.nodup_nil, List.nil_append]
    omega

/-- What an array of bytes is as a string. -/
def cString : List (BitVec 8) → CString
  | [] => []
  | byte :: bytes => if h : byte = 0#8 then [] else ⟨byte, h⟩ :: cString bytes

/-- `"rpc"`. -/
def rpcPoint : CString := cString [0x72#8, 0x70#8, 0x63#8]

/-- `"irq"`. -/
def irqPoint : CString := cString [0x69#8, 0x72#8, 0x71#8]

/-- Three calls after the first. -/
theorem trace_index_interns_rpc :
    ∃ t, traceIndex rpcPoint .initial = some (0, t) ∧ Interns [rpcPoint, irqPoint, rpcPoint] t :=
  (trace_index_interns_iff [rpcPoint, rpcPoint, irqPoint, rpcPoint] (by decide)).2 _ _ rfl

/-- One call, on the empty table. -/
theorem first_index_zero :
    ¬ ∀ strs : List CString, strs.toFinset.card ≤ tracePointMax - 1 → Interns strs .initial := by
  intro h
  exact not_interns_initial rpcPoint [] (h [rpcPoint] (by decide))

/-! ### The points of the macro -/

/-- The table, and the static `idx` of each point. -/
structure TracePoints (ι : Type) where
  table : TraceNames
  idx : ι → ℕ

section Points

variable {ι : Type} [DecidableEq ι] {str : ι → CString} {s s' : TracePoints ι} {p : ι}

/-- The `trace` macro at point `p`. -/
def trace (str : ι → CString) (s : TracePoints ι) (p : ι) : Option (TracePoints ι) :=
  if s.idx p = 0 then
    (traceIndex (str p) s.table).map fun r => ⟨r.2, Function.update s.idx p r.1⟩
  else some s

/-- The points are passed in any order. -/
def traceLts (str : ι → CString) : Lts (TracePoints ι) ι :=
  .ofFun (fun s => s.table = .initial ∧ ∀ p, s.idx p = 0) (trace str)

theorem nodup_tail_append {names : List CString} {name : CString} (hnodup : names.tail.Nodup)
    (hnew : name ∉ names.tail) : (names ++ [name]).tail.Nodup := by
  cases names with
  | nil => exact List.nodup_nil
  | cons first l =>
      rw [List.cons_append, List.tail_cons, ← List.concat_eq_append]
      exact hnodup.concat hnew

/-- What a call returns and leaves, on any table without a string twice behind its first entry. -/
theorem traceIndex_spec {name : CString} {t t' : TraceNames} {i : ℕ}
    (h : traceIndex name t = some (i, t')) (hnodup : t.names.tail.Nodup) :
    t'.names.tail.Nodup ∧ t'.names[i]? = some name ∧ (t.names ≠ [] → i ≠ 0) := by
  rcases traceIndex_cases h with ⟨hmem, rfl, rfl⟩ | ⟨hnew, rfl, hnames⟩
  · refine ⟨hnodup, ?_, fun _ => by omega⟩
    rw [Nat.add_comm, ← List.getElem?_tail]
    exact getElem?_place hmem
  · rw [hnames]
    refine ⟨nodup_tail_append hnodup hnew, List.getElem?_concat_length, fun hne hzero => ?_⟩
    exact hne (List.eq_nil_of_length_eq_zero hzero)

/-- The names behind the first entry are distinct, and a point with an index has its own. -/
structure PointsInv (str : ι → CString) (s : TracePoints ι) : Prop where
  nodup : s.table.names.tail.Nodup
  entry : ∀ p, s.idx p ≠ 0 → s.table.names[s.idx p]? = some (str p)

/-- What passing a point does. -/
theorem trace_cases (h : trace str s p = some s') :
    (s.idx p ≠ 0 ∧ s' = s) ∨
      (s.idx p = 0 ∧ ∃ i t, traceIndex (str p) s.table = some (i, t) ∧
        s' = ⟨t, Function.update s.idx p i⟩) := by
  unfold trace at h
  split at h
  · rename_i hzero
    obtain ⟨⟨i, t⟩, hcall, heq⟩ := Option.map_eq_some_iff.mp h
    exact Or.inr ⟨hzero, i, t, hcall, heq.symm⟩
  · rename_i hidx
    cases h
    exact Or.inl ⟨hidx, rfl⟩

theorem PointsInv.step (hi : PointsInv str s) (h : trace str s p = some s') :
    PointsInv str s' := by
  rcases trace_cases h with ⟨-, rfl⟩ | ⟨hzero, i, t, hcall, rfl⟩
  · exact hi
  · obtain ⟨hnodup, hentry, -⟩ := traceIndex_spec hcall hi.nodup
    refine ⟨hnodup, fun q hq => ?_⟩
    by_cases hqp : q = p
    · subst hqp
      simp only [Function.update_self]
      exact hentry
    · simp only [Function.update_of_ne hqp] at hq ⊢
      exact getElem?_extends (traceIndex_extends hcall) (hi.entry q hq)

theorem pointsInv_of_reachable (h : (traceLts str).Reachable s) : PointsInv str s := by
  refine h.invariant (fun s hs => ⟨?_, fun p hp => absurd (hs.2 p) hp⟩) fun _ _ _ _ hi hs =>
    hi.step hs
  rw [hs.1]
  exact List.nodup_nil

/-- A point keeps its index. -/
theorem idx_step (h : trace str s p = some s') {q : ι} (hq : s.idx q ≠ 0) :
    s'.idx q = s.idx q := by
  rcases trace_cases h with ⟨-, rfl⟩ | ⟨hzero, i, t, -, rfl⟩
  · rfl
  · refine Function.update_of_ne ?_ _ _
    rintro rfl
    exact hq hzero

/-- **Points settle.**  In every reachable state two points with an index share it exactly if their
strings are equal, its entry is that string, and they keep it; a point that is passed once the table
has an entry gets one. -/
theorem trace_points_settle (h : (traceLts str).Reachable s) :
    (∀ p q, s.idx p ≠ 0 → s.idx q ≠ 0 → (s.idx p = s.idx q ↔ str p = str q)) ∧
      (∀ p, s.idx p ≠ 0 → s.table.names[s.idx p]? = some (str p)) ∧
      (∀ ps s', (traceLts str).Run s ps s' → ∀ p, s.idx p ≠ 0 → s'.idx p = s.idx p) ∧
      ∀ p s', trace str s p = some s' → s.table.names ≠ [] → s'.idx p ≠ 0 := by
  have hi := pointsInv_of_reachable h
  refine ⟨fun p q hp hq => ⟨fun heq => ?_, fun heq => ?_⟩, hi.entry, fun ps s' hrun p hp => ?_,
    fun p s' hs hne => ?_⟩
  · have hentry := hi.entry p hp
    rw [heq, hi.entry q hq] at hentry
    exact (Option.some.inj hentry).symm
  · obtain ⟨i, hi'⟩ := Nat.exists_eq_succ_of_ne_zero hp
    obtain ⟨j, hj⟩ := Nat.exists_eq_succ_of_ne_zero hq
    have hp' := hi.entry p hp
    have hq' := hi.entry q hq
    rw [hi', ← List.getElem?_tail] at hp'
    rw [hj, ← List.getElem?_tail, ← heq, ← hp'] at hq'
    rw [hi', hj, (List.getElem?_inj (List.getElem?_eq_some_iff.mp hp').1 hi.nodup).mp hq'.symm]
  · refine hrun.invariant (I := fun s' => s'.idx p = s.idx p) (fun s₁ q s₂ heq hs => ?_) rfl
    have hne : s₁.idx p ≠ 0 := heq ▸ hp
    exact (idx_step hs hne).trans heq
  · rcases trace_cases hs with ⟨hidx, rfl⟩ | ⟨-, i, t, hcall, rfl⟩
    · exact hidx
    · simp only [Function.update_self]
      exact (traceIndex_spec hcall hi.nodup).2.2 hne

end Points

end TiiSel4Vm.Trace
