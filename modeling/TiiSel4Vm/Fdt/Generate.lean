import Mathlib.Data.Int.Notation
import Mathlib.Data.Int.Order.Basic
import TiiSel4Vm.Lib.UpToFirst

/-!
# Generation of device-tree nodes

The nodes of a guest's device tree are registered in a table of pointers, with NULL holes.
`fdt_node_generate_filter` walks the table; its variable `rc` is the condition of the loop, the
verdict of the filter and the result of a generation, in turn.

* `compatibles_loop` — `fdt_node_generate_compatibles` calls the callbacks of the selected nodes up
  to the first that answers a positive value;
* `all_idle` — `fdt_node_generate_all` calls none;
* `generation_complete_iff` — when these calls, and `guest_configure`, reach every node they
  should.
-/

namespace TiiSel4Vm.Fdt

open TiiSel4Vm.UpToFirst

/-! ### Nodes -/

/-- `fdt_node_t`; `none` is NULL.  A callback is what it does to the device tree, of type `σ`. -/
structure FdtNode (σ : Type) where
  compatible : Option String
  generated : Bool
  generate : Option (σ → ℤ × σ)

/-- `fdt_dataport_t`, with the name and the compatible string of its node. -/
structure FdtDataport where
  name : String
  compatible : Option String
  gpa : BitVec 64
  size : BitVec 64

/-- The registered nodes, the device tree (`none` is NULL), and the callbacks that ran so far with
what they returned. -/
structure Tree (ν σ : Type) where
  nodes : ν → FdtNode σ
  fdt : Option σ
  calls : List (ν × ℤ)

section Callbacks

variable {σ : Type}
  (fdtGenerateReservedNode : String → Option String → BitVec 64 → BitVec 64 → σ → ℤ × σ)

/-- `fdt_node_generate_dataport`. -/
def fdtNodeGenerateDataport (dataport : FdtDataport) (fdt : σ) : ℤ × σ :=
  let r := fdtGenerateReservedNode dataport.name dataport.compatible dataport.gpa dataport.size fdt
  if r.1 ≤ 0 then (-1, r.2) else (1, r.2)

/-- `fdt_node_generate_swiotlb`. -/
def fdtNodeGenerateSwiotlb (guestRamBase guestRamSize : BitVec 64) (dataport : FdtDataport)
    (fdt : σ) : ℤ × σ :=
  if dataport.gpa = guestRamBase ∧ dataport.size = guestRamSize then (0, fdt)
  else fdtNodeGenerateDataport fdtGenerateReservedNode dataport fdt

/-- The node of a dataport. -/
def FdtDataport.node (guestRamBase guestRamSize : BitVec 64) (dataport : FdtDataport) :
    FdtNode σ where
  compatible := dataport.compatible
  generated := false
  generate := some
    (fdtNodeGenerateSwiotlb fdtGenerateReservedNode guestRamBase guestRamSize dataport)

end Callbacks

/-! ### The walk over the table -/

section Walk

variable {ν σ : Type} [DecidableEq ν]

/-- `fdt_node_generate`. -/
def fdtNodeGenerate (w : Tree ν σ) (node : ν) : ℤ × Tree ν σ :=
  match (w.nodes node).generate, w.fdt with
  | some generate, some fdt =>
      if (w.nodes node).generated then (0, w)
      else
        let r := generate fdt
        (r.1, { nodes := if 0 < r.1 then
                    Function.update w.nodes node { w.nodes node with generated := true }
                  else w.nodes
                fdt := some r.2
                calls := w.calls ++ [(node, r.1)] })
  | _, _ => (-1, w)

/-- `fdt_node_filter_compatible`. -/
def fdtNodeFilterCompatible (compatible : Option String) (node : FdtNode σ) : ℤ :=
  match compatible, node.compatible with
  | none, _ => -1
  | some _, none => 0
  | some c, some s => if s ≠ c then 0 else 1

/-- The loop of `fdt_node_generate_filter` over the rest of the table. -/
def generateLoop (filterFn : Option (FdtNode σ → ℤ)) :
    List (Option ν) → ℤ → Tree ν σ → ℤ × Tree ν σ
  | [], _, w => (0, w)
  | ptr :: rest, rc, w =>
      if rc ≠ 0 then (0, w)
      else
        match ptr with
        | none => generateLoop filterFn rest rc w
        | some node =>
            let rc := match filterFn with
              | some f => f (w.nodes node)
              | none => rc
            if filterFn.isSome ∧ rc = -1 then (-1, w)
            else if rc = 0 then generateLoop filterFn rest rc w
            else
              let r := fdtNodeGenerate w node
              if r.1 < 0 then (-1, r.2) else generateLoop filterFn rest r.1 r.2

/-- `fdt_node_generate_filter`. -/
def fdtNodeGenerateFilter (filterFn : Option (FdtNode σ → ℤ)) (table : List (Option ν))
    (w : Tree ν σ) : ℤ × Tree ν σ :=
  generateLoop filterFn table 0 w

/-- `fdt_node_generate_compatibles`. -/
def fdtNodeGenerateCompatibles (table : List (Option ν)) (w : Tree ν σ)
    (compatible : Option String) : ℤ × Tree ν σ :=
  fdtNodeGenerateFilter (some (fdtNodeFilterCompatible compatible)) table w

/-- `fdt_node_generate_all`. -/
def fdtNodeGenerateAll (table : List (Option ν)) (w : Tree ν σ) : ℤ × Tree ν σ :=
  fdtNodeGenerateFilter none table w

/-- `guest_configure`; `vpciInstall` is the result of the module's initialisation, `pciConfig` what
`fdt_generate_pci_config` does to the device tree. -/
def guestConfigure (vpciInstall : ℤ) (generateDtb : Bool) (pciConfig : Option σ → ℤ × Option σ)
    (table : List (Option ν)) (w : Tree ν σ) : ℤ × Tree ν σ :=
  if vpciInstall ≠ 0 then (-1, w)
  else if !generateDtb then (0, w)
  else
    let r := fdtNodeGenerateCompatibles table w (some "restricted-dma-pool")
    if r.1 ≠ 0 then (-1, r.2)
    else
      let p := pciConfig r.2.fdt
      let w' := { r.2 with fdt := p.2 }
      if p.1 ≠ 0 then (-1, w')
      else
        let s := fdtNodeGenerateAll table w'
        if s.1 ≠ 0 then (-1, s.2) else (0, s.2)

end Walk

/-! ### What a call should do -/

section Purpose

variable {ν σ : Type}

/-- The nodes in the table, in order. -/
def registered (table : List (Option ν)) : List ν := table.filterMap id

/-- The call with this string is for the node. -/
def Selected (compatible : Option String) (node : FdtNode σ) : Bool :=
  compatible.isSome && node.compatible == compatible

/-- The nodes that a call for the nodes `select` has to generate. -/
def pending (select : FdtNode σ → Bool) (nodes : ν → FdtNode σ) (table : List (Option ν)) :
    List ν :=
  (registered table).filter fun n => select (nodes n) && !(nodes n).generated

/-- What `fdt_node_generate` makes of a node that is not generated yet. -/
def answer (nodes : ν → FdtNode σ) (n : ν) (fdt : Option σ) : ℤ × Option σ :=
  match (nodes n).generate, fdt with
  | some generate, some fdt => ((generate fdt).1, some (generate fdt).2)
  | _, _ => (-1, fdt)

/-- The nodes with what they answer, each on the device tree that the ones before it leave. -/
def answers (nodes : ν → FdtNode σ) : List ν → Option σ → List (ν × ℤ)
  | [], _ => []
  | n :: ns, fdt => (n, (answer nodes n fdt).1) :: answers nodes ns (answer nodes n fdt).2

/-- The node has answered a positive value. -/
def Generates (c : ν × ℤ) : Prop := 0 < c.2

instance : DecidablePred (Generates (ν := ν)) := fun c => inferInstanceAs (Decidable (0 < c.2))

variable [DecidableEq ν]

/-- A call from `w` to `w'` has run the callback of every node it had to generate once and no other,
and marked generated exactly the nodes whose callback returned a positive value. -/
structure Meets (select : FdtNode σ → Bool) (table : List (Option ν)) (w w' : Tree ν σ) : Prop where
  once : ∀ n ∈ pending select w.nodes table,
    (w'.calls.map Prod.fst).count n = (w.calls.map Prod.fst).count n + 1
  others : ∀ n ∉ pending select w.nodes table,
    (w'.calls.map Prod.fst).count n = (w.calls.map Prod.fst).count n
  marked : ∀ n, (w'.nodes n).generated = true ↔
    (w.nodes n).generated = true ∨ ∃ c ∈ w'.calls.drop w.calls.length, c.1 = n ∧ Generates c

/-- Among the nodes to generate, one stands behind a node that answers a positive value exactly when
it has stood before. -/
def NoneBehind (select : FdtNode σ → Bool) (table : List (Option ν)) (w : Tree ν σ) : Prop :=
  ∀ pre c post, answers w.nodes (pending select w.nodes table) w.fdt = pre ++ c :: post →
    ((∃ d ∈ pre, Generates d) ↔ ∃ d ∈ pre, d.1 = c.1)

end Purpose

/-! ### What the calls do -/

section Calls

variable {ν σ : Type} [DecidableEq ν] {table : List (Option ν)} {w w' : Tree ν σ} {n : ν}
  {select : FdtNode σ → Bool} {compatible : Option String}

theorem generateLoop_of_ne_zero {filterFn : Option (FdtNode σ → ℤ)} {rc : ℤ} (h : rc ≠ 0) :
    generateLoop filterFn table rc w = (0, w) := by
  cases table with
  | nil => rfl
  | cons ptr rest => exact if_pos h

omit [DecidableEq ν] in
theorem pending_cons_of_pos (h : select (w.nodes n) = true) (hg : (w.nodes n).generated = false) :
    pending select w.nodes (some n :: table) = n :: pending select w.nodes table := by
  show List.filter _ (n :: registered table) = _
  rw [List.filter_cons_of_pos (by simp [h, hg])]
  rfl

omit [DecidableEq ν] in
theorem pending_cons_of_neg (h : select (w.nodes n) = false ∨ (w.nodes n).generated = true) :
    pending select w.nodes (some n :: table) = pending select w.nodes table := by
  show List.filter _ (n :: registered table) = _
  rw [List.filter_cons_of_neg]
  · rfl
  · rcases h with h | h
    · simp [h]
    · simp [h]

/-- The verdicts of the filter. -/
theorem filter_verdict (compatible : Option String) (node : FdtNode σ) :
    fdtNodeFilterCompatible compatible node = -1 ∨
      (fdtNodeFilterCompatible compatible node = 0 ∧ Selected compatible node = false) ∨
      (fdtNodeFilterCompatible compatible node = 1 ∧ Selected compatible node = true) := by
  unfold fdtNodeFilterCompatible Selected
  split
  · exact Or.inl rfl
  · rename_i heq
    exact Or.inr (Or.inl ⟨rfl, by simp [heq]⟩)
  · rename_i c s heq
    by_cases hs : s = c
    · exact Or.inr (Or.inr ⟨by simp [hs], by simp [heq, hs]⟩)
    · exact Or.inr (Or.inl ⟨by simp [hs], by simp [heq, hs]⟩)

/-- A generated node is left alone. -/
theorem generate_done (hg : (w.nodes n).generated = true) (h : ¬ (fdtNodeGenerate w n).1 < 0) :
    fdtNodeGenerate w n = (0, w) := by
  unfold fdtNodeGenerate at h ⊢
  split
  · rw [if_pos hg]
  · rename_i hnull
    split at h
    · rename_i heq heq'
      exact absurd heq' (hnull _ _ heq)
    · exact absurd (by decide : (-1 : ℤ) < 0) h

/-- The callback of a node that is not generated runs, and a positive value marks the node. -/
theorem generate_pending (hg : (w.nodes n).generated = false) (h : ¬ (fdtNodeGenerate w n).1 < 0) :
    fdtNodeGenerate w n = ((answer w.nodes n w.fdt).1,
      { nodes := if 0 < (answer w.nodes n w.fdt).1 then
            Function.update w.nodes n { w.nodes n with generated := true }
          else w.nodes
        fdt := (answer w.nodes n w.fdt).2
        calls := w.calls ++ [(n, (answer w.nodes n w.fdt).1)] }) := by
  unfold fdtNodeGenerate at h ⊢
  split
  · rename_i generate fdt hgen hfdt
    rw [if_neg (by simp [hg])]
    simp only [answer, hgen, hfdt]
  · rename_i hnull
    split at h
    · rename_i heq heq'
      exact absurd heq' (hnull _ _ heq)
    · exact absurd (by decide : (-1 : ℤ) < 0) h

/-- **The walk for a compatible string** runs the callbacks of the pending nodes up to the first
that answers a positive value, and marks that one. -/
theorem compatibles_loop
    (h : generateLoop (some (fdtNodeFilterCompatible compatible)) table 0 w = (0, w')) :
    ∃ new, new = upToFirst Generates
        (answers w.nodes (pending (Selected compatible) w.nodes table) w.fdt) ∧
      w'.calls = w.calls ++ new ∧
      ∀ n, (w'.nodes n).generated = true ↔
        (w.nodes n).generated = true ∨ ∃ c ∈ new, c.1 = n ∧ Generates c := by
  induction table generalizing w with
  | nil =>
      cases h
      exact ⟨[], rfl, (List.append_nil _).symm, fun n => by simp⟩
  | cons ptr rest ih =>
      rw [generateLoop.eq_def] at h
      dsimp only at h
      rw [if_neg (by decide)] at h
      cases ptr with
      | none => exact ih h
      | some n =>
          simp only [Option.isSome_some, true_and] at h
          rcases filter_verdict compatible (w.nodes n) with hv | ⟨hv, hsel⟩ | ⟨hv, hsel⟩
          · simp [hv] at h
          · rw [hv, if_neg (by decide), if_pos rfl] at h
            rw [pending_cons_of_neg (Or.inl hsel)]
            exact ih h
          · rw [hv, if_neg (by decide), if_neg (by decide)] at h
            by_cases hrc : (fdtNodeGenerate w n).1 < 0
            · rw [if_pos hrc] at h
              cases h
            · rw [if_neg hrc] at h
              cases hg : (w.nodes n).generated with
              | true =>
                  rw [generate_done hg hrc] at h
                  rw [pending_cons_of_neg (Or.inr hg)]
                  exact ih h
              | false =>
                  rw [pending_cons_of_pos hsel hg, answers]
                  have hgen := generate_pending hg hrc
                  by_cases hpos : 0 < (answer w.nodes n w.fdt).1
                  · rw [hgen, if_pos hpos, generateLoop_of_ne_zero (Int.ne_of_gt hpos)] at h
                    cases h
                    have hhit : Generates (n, (answer w.nodes n w.fdt).1) := hpos
                    rw [upToFirst_cons_of_pos hhit]
                    refine ⟨_, rfl, rfl, fun m => ?_⟩
                    by_cases hm : m = n
                    · subst hm
                      simp [hhit]
                    · simp [hm, Ne.symm hm]
                  · have hzero : (answer w.nodes n w.fdt).1 = 0 := by
                      rw [hgen] at hrc
                      exact Int.le_antisymm (Int.not_lt.mp hpos) (Int.not_lt.mp hrc)
                    rw [hgen, if_neg hpos] at h
                    simp only [hzero] at h
                    obtain ⟨new, rfl, hcalls, hmarked⟩ := ih h
                    have hmiss : ¬ Generates (n, (answer w.nodes n w.fdt).1) := hpos
                    rw [upToFirst_cons_of_neg hmiss]
                    refine ⟨_, rfl, ?_, fun m => ?_⟩
                    · rw [hcalls, hzero, List.append_assoc]
                      rfl
                    · rw [hmarked]
                      simp [Generates, hzero]

/-- **The walk without a filter** generates nothing: `rc` is 0 at every node. -/
theorem all_idle (table : List (Option ν)) (w : Tree ν σ) :
    fdtNodeGenerateAll table w = (0, w) := by
  show generateLoop none table 0 w = (0, w)
  induction table with
  | nil => rfl
  | cons ptr rest ih =>
      rw [generateLoop.eq_def]
      dsimp only
      rw [if_neg (by decide)]
      cases ptr with
      | none => exact ih
      | some n => exact ih

omit [DecidableEq ν] in
theorem answers_fst (nodes : ν → FdtNode σ) (ns : List ν) (fdt : Option σ) :
    (answers nodes ns fdt).map Prod.fst = ns := by
  induction ns generalizing fdt with
  | nil => rfl
  | cons n ns ih => rw [answers, List.map_cons, ih]

/-- **When a compatible string reaches its nodes.** -/
theorem compatibles_meets_iff (h : fdtNodeGenerateCompatibles table w compatible = (0, w')) :
    Meets (Selected compatible) table w w' ↔ NoneBehind (Selected compatible) table w := by
  obtain ⟨new, hnew, hcalls, hmarked⟩ := compatibles_loop h
  have hcount : ∀ n, (w'.calls.map Prod.fst).count n
      = (w.calls.map Prod.fst).count n + (new.map Prod.fst).count n := by
    intro n
    rw [hcalls, List.map_append, List.count_append]
  have hfst := answers_fst w.nodes (pending (Selected compatible) w.nodes table) w.fdt
  have hiff : (∀ n ∈ pending (Selected compatible) w.nodes table, (new.map Prod.fst).count n = 1) ↔
      NoneBehind (Selected compatible) table w := by
    rw [NoneBehind, ← count_upToFirst_iff, ← hnew]
    constructor
    · intro hone c hc
      refine hone c.1 ?_
      rw [← hfst]
      exact List.mem_map_of_mem hc
    · intro hone n hn
      rw [← hfst] at hn
      obtain ⟨c, hc, rfl⟩ := List.mem_map.mp hn
      exact hone c hc
  rw [← hiff]
  constructor
  · intro hm n hn
    have := hm.once n hn
    rw [hcount] at this
    omega
  · intro hone
    refine ⟨fun n hn => ?_, fun n hn => ?_, fun n => ?_⟩
    · rw [hcount, hone n hn]
    · have hzero : (new.map Prod.fst).count n = 0 := by
        refine List.count_eq_zero.mpr fun hm => hn ?_
        obtain ⟨c, hc, rfl⟩ := List.mem_map.mp hm
        rw [hnew] at hc
        rw [← hfst]
        exact List.mem_map_of_mem (mem_of_mem_upToFirst hc)
      rw [hcount, hzero]
      rfl
    · rw [hmarked, hcalls, List.drop_left]

omit [DecidableEq ν] in
theorem mem_pending : n ∈ pending select w.nodes table ↔
    n ∈ registered table ∧ select (w.nodes n) = true ∧ (w.nodes n).generated = false := by
  simp [pending]

/-- **When `fdt_node_generate_all` reaches its nodes.** -/
theorem all_meets_iff (h : fdtNodeGenerateAll table w = (0, w')) :
    Meets (fun _ => true) table w w' ↔
      ∀ n ∈ registered table, (w.nodes n).generated = true := by
  rw [all_idle] at h
  cases h
  constructor
  · intro hm n hn
    by_contra hg
    have hone := hm.once n (mem_pending.mpr ⟨hn, rfl, Bool.eq_false_iff.mpr hg⟩)
    omega
  · intro hall
    refine ⟨fun n hn => ?_, fun _ _ => rfl, fun n => by simp⟩
    obtain ⟨hreg, _, hg⟩ := mem_pending.mp hn
    rw [hall n hreg] at hg
    cases hg

/-- The node was generated before `w`, or its callback has run between `w` and `w'`. -/
def Offered (w w' : Tree ν σ) (n : ν) : Prop :=
  (w.nodes n).generated = true ∨ ∃ c ∈ w'.calls.drop w.calls.length, c.1 = n

/-- **When `guest_configure` offers every node.** -/
theorem guestConfigure_offers_iff {vpciInstall : ℤ} {pciConfig : Option σ → ℤ × Option σ}
    (h : guestConfigure vpciInstall true pciConfig table w = (0, w')) :
    (∀ n ∈ registered table, Offered w w' n) ↔
      ∀ n ∈ registered table, (w.nodes n).generated = true ∨ ∃ pre c post,
        answers w.nodes (pending (Selected (some "restricted-dma-pool")) w.nodes table) w.fdt
          = pre ++ c :: post ∧ c.1 = n ∧ ∀ d ∈ pre, ¬ Generates d := by
  have hcompat : ∃ w₁, fdtNodeGenerateCompatibles table w (some "restricted-dma-pool") = (0, w₁) ∧
      w'.calls = w₁.calls := by
    unfold guestConfigure at h
    simp only [all_idle, Bool.not_true, Bool.false_eq_true, if_false, ne_eq, not_true_eq_false]
      at h
    split at h
    · cases h
    · split at h
      · cases h
      · rename_i hrc
        split at h
        · cases h
        · cases h
          exact ⟨_, Prod.ext (not_not.mp hrc) rfl, rfl⟩
  obtain ⟨w₁, hw₁, hcalls⟩ := hcompat
  obtain ⟨new, hnew, hcalls₁, _⟩ := compatibles_loop hw₁
  have hoffered : ∀ n, Offered w w' n ↔ (w.nodes n).generated = true ∨ ∃ c ∈ new, c.1 = n := by
    intro n
    rw [Offered, hcalls, hcalls₁, List.drop_left]
  simp only [hoffered, hnew, mem_upToFirst_iff]
  refine forall₂_congr fun n _ => or_congr_right ?_
  constructor
  · rintro ⟨c, ⟨pre, post, hsplit, hpre⟩, hc⟩
    exact ⟨pre, c, post, hsplit, hc, hpre⟩
  · rintro ⟨pre, c, post, hsplit, hc, hpre⟩
    exact ⟨c, ⟨pre, post, hsplit, hpre⟩, hc⟩

/-- **When generation is complete.**  A call for a compatible string that returns 0 runs the
callback of every pending node once if and only if a pending node stands behind one that answers a
positive value only when it has stood before.  `fdt_node_generate_all` does so only when nothing is
pending, and `guest_configure` offers just the nodes that its call for a compatible string
reaches. -/
theorem generation_complete_iff (table : List (Option ν)) (w w' : Tree ν σ) :
    (∀ compatible, fdtNodeGenerateCompatibles table w compatible = (0, w') →
      (Meets (Selected compatible) table w w' ↔ NoneBehind (Selected compatible) table w)) ∧
    (fdtNodeGenerateAll table w = (0, w') →
      (Meets (fun _ => true) table w w' ↔
        ∀ n ∈ registered table, (w.nodes n).generated = true)) ∧
    ∀ vpciInstall pciConfig, guestConfigure vpciInstall true pciConfig table w = (0, w') →
      ((∀ n ∈ registered table, Offered w w' n) ↔
        ∀ n ∈ registered table, (w.nodes n).generated = true ∨ ∃ pre c post,
          answers w.nodes (pending (Selected (some "restricted-dma-pool")) w.nodes table) w.fdt
            = pre ++ c :: post ∧ c.1 = n ∧ ∀ d ∈ pre, ¬ Generates d) :=
  ⟨fun _ h => compatibles_meets_iff h, all_meets_iff, fun _ _ h => guestConfigure_offers_iff h⟩

end Calls

/-! ### One backend and two -/

/-- The bounce buffer of a backend, at `gpa`. -/
def bounceBuffer (gpa : BitVec 64) : FdtDataport where
  name := "swiotlb"
  compatible := some "restricted-dma-pool"
  gpa := gpa
  size := 4096#64

/-- The node of a dataport, with the guest's RAM at 8192; every reservation takes the next offset of
the device tree. -/
def nextOffset (dataport : FdtDataport) : FdtNode ℕ :=
  dataport.node (fun _ _ _ _ offset => ((offset : ℤ) + 1, offset + 1)) 8192#64 4096#64

/-- Bounce buffers at 0 (`false`) and 4096 (`true`). -/
def bounceBuffers : Tree Bool ℕ where
  nodes b := nextOffset (bounceBuffer (if b then 4096#64 else 0#64))
  fdt := some 0
  calls := []

/-- A bounce buffer that is the guest's RAM, a dataport of no string, a bounce buffer at 4096, and
one at 0 that is generated already. -/
def mixedNodes : Tree ℕ ℕ where
  nodes
    | 0 => nextOffset (bounceBuffer 8192#64)
    | 1 => nextOffset { bounceBuffer 0#64 with compatible := none }
    | 2 => nextOffset (bounceBuffer 4096#64)
    | _ => { nextOffset (bounceBuffer 0#64) with generated := true }
  fdt := some 0
  calls := []

/-- `generation_complete_iff` for these nodes, with a hole in the table: the callbacks of the first
and the third run, and the third is generated. -/
theorem generation_complete_mixedNodes :
    Meets (Selected (some "restricted-dma-pool")) [some 0, none, some 1, some 3, some 2] mixedNodes
      (fdtNodeGenerateCompatibles [some 0, none, some 1, some 3, some 2] mixedNodes
        (some "restricted-dma-pool")).2 := by
  have hzero : (fdtNodeGenerateCompatibles [some 0, none, some 1, some 3, some 2] mixedNodes
      (some "restricted-dma-pool")).1 = 0 := by
    decide +kernel
  refine ((generation_complete_iff [some 0, none, some 1, some 3, some 2] mixedNodes _).1
    (some "restricted-dma-pool") (Prod.ext hzero rfl)).mpr ?_
  have hanswers : answers mixedNodes.nodes (pending (Selected (some "restricted-dma-pool"))
      mixedNodes.nodes [some 0, none, some 1, some 3, some 2]) mixedNodes.fdt
      = [(0, 0), (2, 1)] := by
    decide +kernel
  intro pre c post hsplit
  rw [hanswers] at hsplit
  -- before the first nothing stands, and before the second the one that answers 0
  rcases pre with _ | ⟨a, _ | ⟨b, rest⟩⟩
  · simp
  · simp only [List.cons_append, List.nil_append, List.cons.injEq] at hsplit
    obtain ⟨rfl, rfl, -⟩ := hsplit
    simp [Generates]
  · have hlen := congrArg List.length hsplit
    simp only [List.length_append, List.length_cons, List.length_nil] at hlen
    omega

/-- **The second backend is missed.**  With two bounce buffers the call for their compatible string
returns 0 after the first, and `guest_configure` never offers the second. -/
theorem second_backend_missed :
    (∃ w', fdtNodeGenerateCompatibles [some false, some true] bounceBuffers
        (some "restricted-dma-pool") = (0, w') ∧
      ¬ Meets (Selected (some "restricted-dma-pool")) [some false, some true] bounceBuffers w') ∧
    ∃ w', guestConfigure 0 true (fun fdt => (0, fdt)) [some false, some true] bounceBuffers
        = (0, w') ∧
      ¬ Offered bounceBuffers w' true := by
  have hzero : (fdtNodeGenerateCompatibles [some false, some true] bounceBuffers
      (some "restricted-dma-pool")).1 = 0 := by
    decide +kernel
  have hzero' : (guestConfigure 0 true (fun fdt => (0, fdt)) [some false, some true]
      bounceBuffers).1 = 0 := by
    decide +kernel
  refine ⟨⟨_, Prod.ext hzero rfl, fun hm => ?_⟩, _, Prod.ext hzero' rfl, ?_⟩
  · have hmem : true ∈ pending (Selected (some "restricted-dma-pool")) bounceBuffers.nodes
        [some false, some true] := by
      decide +kernel
    exact absurd (hm.once true hmem) (by decide +kernel)
  · have hcalls : ∀ c ∈ (guestConfigure 0 true (fun fdt => (0, fdt)) [some false, some true]
        bounceBuffers).2.calls.drop bounceBuffers.calls.length, c.1 = false := by
      decide +kernel
    rintro (hg | ⟨c, hc, he⟩)
    · exact absurd hg (by decide +kernel)
    · rw [hcalls c hc] at he
      cases he

end TiiSel4Vm.Fdt
