import Mathlib.Data.Nat.Digits.Defs
import TiiSel4Vm.Fdt.Libfdt
import TiiSel4Vm.Lib.Transition

/-!
# Reserved memory in the device tree

`fdt_generate_reserved_node` adds a node for a memory area under `/reserved-memory`, named after a
prefix and the base address, with a phandle of its own.  `fdt_assign_reserved_memory` formats the
same name, looks the node up and appends its phandle to a device.

* `memoryName_inj` — the name tells the prefix and the address;
* `generate_adds` — what a successful generation adds;
* `assign_eq` — what an assignment does, by the phandle under that name;
* `reserved_memory_resolves` — over any sequence of successful calls.
-/

namespace TiiSel4Vm.Fdt

open TiiSel4Vm.Outlines TiiSel4Vm.Transition

/-! ### Names -/

/-- `snprintf` of the string into `len` bytes: the result, and what is in the buffer. -/
def snprintf (len : ℕ) (s : CString) : ℤ × CString := (s.length, s.take (len - 1))

/-- `fdt_format`. -/
def fdtFormat (len : ℕ) (s : CString) : ℤ × CString :=
  let r := snprintf len s
  (if r.1 < 0 ∨ (len : ℤ) ≤ r.1 then -fdtErrInternal else 0, r.2)

/-- What `"%s@%"PRIxPTR` stands for. -/
def memoryName (pfx : CString) (base : BitVec 64) : CString :=
  pfx ++ '@' :: Nat.toDigits 16 base.toNat

/-- `fdt_format_memory_name`. -/
def fdtFormatMemoryName (len : ℕ) (pfx : CString) (base : BitVec 64) : ℤ × CString :=
  fdtFormat len (memoryName pfx base)

/-- `sizeof(name)`. -/
abbrev nameSize : ℕ := 64

/-- `sizeof path`. -/
abbrev pathSize : ℕ := 256

/-- The formatted name fits the buffer, and is one name of a path. -/
def Fits (pfx : CString) (base : BitVec 64) : Prop :=
  '/' ∉ pfx ∧ (memoryName pfx base).length < nameSize

theorem fdtFormatMemoryName_of_lt {pfx : CString} {base : BitVec 64}
    (h : (memoryName pfx base).length < nameSize) :
    fdtFormatMemoryName nameSize pfx base = (0, memoryName pfx base) := by
  have hnot : ¬ (((memoryName pfx base).length : ℤ) < 0 ∨
      (nameSize : ℤ) ≤ (memoryName pfx base).length) := by
    omega
  exact Prod.ext (if_neg hnot) (List.take_of_length_le (Nat.le_sub_one_of_lt h))

theorem fdtFormatMemoryName_of_le {pfx : CString} {base : BitVec 64}
    (h : nameSize ≤ (memoryName pfx base).length) :
    fdtFormatMemoryName nameSize pfx base
      = (-fdtErrInternal, (memoryName pfx base).take (nameSize - 1)) := by
  have hlong : ((memoryName pfx base).length : ℤ) < 0 ∨
      (nameSize : ℤ) ≤ (memoryName pfx base).length := by
    omega
  exact Prod.ext (if_pos hlong) rfl

theorem digitChar_inj {m n : ℕ} (hm : m < 16) (hn : n < 16)
    (h : Nat.digitChar m = Nat.digitChar n) : m = n := by
  have hall : ∀ a : Fin 16, ∀ b : Fin 16, Nat.digitChar a = Nat.digitChar b → a = b := by
    decide
  exact congrArg Fin.val (hall ⟨m, hm⟩ ⟨n, hn⟩ h)

/-- Different numbers have different digits. -/
theorem toDigits_inj {m n : ℕ} (h : Nat.toDigits 16 m = Nat.toDigits 16 n) : m = n := by
  induction m using Nat.strong_induction_on generalizing n with
  | h m ih =>
      have hne : ∀ k, Nat.toDigits 16 k ≠ [] := fun k => Nat.toDigits_ne_nil
      by_cases hm : m < 16 <;> by_cases hn : n < 16
      · rw [Nat.toDigits_of_lt_base hm, Nat.toDigits_of_lt_base hn] at h
        exact digitChar_inj hm hn (List.cons.inj h).1
      · rw [Nat.toDigits_of_lt_base hm, Nat.toDigits_of_base_le (by decide) (by omega)] at h
        exact absurd (List.append_eq_singleton_iff.mp h.symm) (by simp [hne])
      · rw [Nat.toDigits_of_lt_base hn, Nat.toDigits_of_base_le (by decide) (by omega)] at h
        exact absurd (List.append_eq_singleton_iff.mp h) (by simp [hne])
      · rw [Nat.toDigits_of_base_le (by decide) (Nat.le_of_not_lt hm),
          Nat.toDigits_of_base_le (by decide) (Nat.le_of_not_lt hn)] at h
        obtain ⟨hdiv, hmod⟩ := List.append_inj' h rfl
        have hdiv' := ih (m / 16) (by omega) hdiv
        have hmod' := digitChar_inj (Nat.mod_lt m (by decide)) (Nat.mod_lt n (by decide))
          (List.cons.inj hmod).1
        omega

theorem mem_toDigits {n : ℕ} {c : Char} (h : c ∈ Nat.toDigits 16 n) : c ≠ '@' ∧ c ≠ '/' := by
  have hall : ∀ a : Fin 16, Nat.digitChar a ≠ '@' ∧ Nat.digitChar a ≠ '/' := by
    decide
  induction n using Nat.strong_induction_on with
  | h n ih =>
      rw [Nat.toDigits_eq_if (by decide)] at h
      split at h
      · rename_i hlt
        rw [List.mem_singleton] at h
        subst h
        exact hall ⟨n, hlt⟩
      · rename_i hge
        rw [List.mem_append, List.mem_singleton] at h
        rcases h with h | rfl
        · exact ih (n / 16) (by omega) h
        · exact hall ⟨n % 16, by omega⟩

theorem at_mem_memoryName (pfx : CString) (base : BitVec 64) : '@' ∈ memoryName pfx base :=
  List.mem_append_right pfx List.mem_cons_self

theorem slash_not_mem_memoryName {pfx : CString} (h : '/' ∉ pfx) (base : BitVec 64) :
    '/' ∉ memoryName pfx base := by
  intro hmem
  rcases List.mem_append.mp hmem with hpfx | hrest
  · exact h hpfx
  · rcases List.mem_cons.mp hrest with hat | hdigit
    · exact absurd hat (by decide)
    · exact (mem_toDigits hdigit).2 rfl

/-- What stands behind the last `@`. -/
theorem append_at_inj {s s' d d' : CString} (hd : '@' ∉ d) (hd' : '@' ∉ d')
    (h : s ++ '@' :: d = s' ++ '@' :: d') : s = s' ∧ d = d' := by
  rcases List.append_eq_append_iff.mp h with ⟨r, hr, hrest⟩ | ⟨r, hr, hrest⟩
  · cases r with
    | nil =>
        rw [List.nil_append] at hrest
        rw [List.append_nil] at hr
        exact ⟨hr.symm, (List.cons.inj hrest).2⟩
    | cons c r =>
        rw [List.cons_append] at hrest
        refine absurd ?_ hd
        rw [(List.cons.inj hrest).2]
        exact List.mem_append_right r List.mem_cons_self
  · cases r with
    | nil =>
        rw [List.nil_append] at hrest
        rw [List.append_nil] at hr
        exact ⟨hr, (List.cons.inj hrest).2.symm⟩
    | cons c r =>
        rw [List.cons_append] at hrest
        refine absurd ?_ hd'
        rw [(List.cons.inj hrest).2]
        exact List.mem_append_right r List.mem_cons_self

/-- **The name tells the prefix and the address.** -/
theorem memoryName_inj {pfx pfx' : CString} {base base' : BitVec 64}
    (h : memoryName pfx base = memoryName pfx' base') : pfx = pfx' ∧ base = base' := by
  obtain ⟨hpfx, hdigits⟩ := append_at_inj (fun hmem => (mem_toDigits hmem).1 rfl)
    (fun hmem => (mem_toDigits hmem).1 rfl) h
  exact ⟨hpfx, BitVec.eq_of_toNat_eq (toDigits_inj hdigits)⟩

/-! ### The functions

Their pointer arguments are not NULL. -/

section Functions

variable {T : Type} (lib : Libfdt T)

/-- `fdt_assign_phandle`. -/
def fdtAssignPhandle (fdt : T) (offset : ℤ) : ℤ × T :=
  let maxPhandle := lib.getMaxPhandle fdt
  let phandle := maxPhandle + 1#32
  if maxPhandle = -1#32 then (-fdtErrNophandles, fdt)
  else if phandle < maxPhandle ∨ phandle = -1#32 then (-fdtErrNophandles, fdt)
  else lib.appendpropU32 fdt offset "phandle" phandle

/-- `if (err) goto error`, and what follows it. -/
def orError (r : ℤ × T) (rest : T → ℤ × T) : ℤ × T := if r.1 ≠ 0 then r else rest r.2

/-- `fdt_generate_reserved_node`. -/
def fdtGenerateReservedNode (fdt : T) (pfx : CString) (compatible : String)
    (base size : BitVec 64) : ℤ × T :=
  let name := fdtFormatMemoryName nameSize pfx base
  if name.1 ≠ 0 then (-fdtErrInternal, fdt)
  else
    let rootOffset := lib.pathOffset fdt "/reserved-memory".toList
    if rootOffset < 0 then (rootOffset, fdt)
    else
      let addressCells := lib.addressCells fdt rootOffset
      let sizeCells := lib.sizeCells fdt rootOffset
      let this := lib.addSubnode fdt rootOffset name.2
      if this.1 < 0 then this
      else
        orError (lib.appendpropString this.2 this.1 "compatible" compatible) fun fdt =>
        orError (lib.appendpropUint fdt this.1 "reg" base addressCells) fun fdt =>
        orError (lib.appendpropUint fdt this.1 "reg" size sizeCells) fun fdt =>
        orError (fdtAssignPhandle lib fdt this.1) fun fdt =>
        let err := lib.generateMemoryNode fdt base size
        if err.1 ≠ 0 then (-1, err.2) else (this.1, err.2)

/-- `fdt_reserved_memory_phandle`: the result and, if it is 0, `*phandle`. -/
def fdtReservedMemoryPhandle (fdt : T) (name : CString) : ℤ × BitVec 32 :=
  let (n, path) := snprintf pathSize ("/reserved-memory/".toList ++ name)
  if n < 0 ∨ (pathSize : ℤ) ≤ n then (-fdtErrInternal, 0#32)
  else
    let off := lib.pathOffset fdt path
    if off < 0 then (off, 0#32)
    else
      let p := lib.getPhandle fdt off
      if p = 0#32 then (-fdtErrNotfound, 0#32) else (0, p)

/-- `fdt_assign_reserved_memory`.  It checks that `name` is not NULL, which an array never is, and
not what `fdt_format_memory_name` returned. -/
def fdtAssignReservedMemory (fdt : T) (off : ℤ) (pfx : CString) (base : BitVec 64) : ℤ × T :=
  let (_, name) := fdtFormatMemoryName nameSize pfx base
  let (err, phandle) := fdtReservedMemoryPhandle lib fdt name
  if err = -fdtErrNotfound then (0, fdt)
  else if err < 0 then (-1, fdt)
  else lib.appendpropU32 fdt off "memory-region" phandle

end Functions

/-! ### Looking a node up -/

/-- The path of a node under `/reserved-memory`. -/
def reservedPath (name : CString) : List CString := [reservedMemory, name]

/-- The first node under `/reserved-memory` with a name. -/
def region (l : Outline Label) (name : CString) : Option Label :=
  (reservedNodes l).bind fun nodes => nodes.find? (·.name = name)

/-- Its phandle; 0 if there is no such node or it has none. -/
def regionPhandle (l : Outline Label) (name : CString) : BitVec 32 :=
  (region l name).elim 0#32 Label.phandle

theorem pathString_reservedMemory : "/reserved-memory".toList = pathString [reservedMemory] := by
  decide +kernel

theorem pathString_reservedPath (name : CString) :
    "/reserved-memory/".toList ++ name = pathString (reservedPath name) := by
  have hroot : "/reserved-memory/".toList = '/' :: (reservedMemory ++ ['/']) := by
    decide +kernel
  rw [hroot]
  simp [pathString, reservedPath]

theorem properPath_reservedMemory : ProperPath [reservedMemory] := by
  have hproper : reservedMemory ≠ [] ∧ '/' ∉ reservedMemory := by
    decide +kernel
  refine ⟨List.cons_ne_nil _ _, fun s hs => ?_⟩
  rw [List.mem_singleton.mp hs]
  exact hproper

theorem properPath_reservedPath {name : CString} (hname : name ≠ []) (hslash : '/' ∉ name) :
    ProperPath (reservedPath name) := by
  refine ⟨List.cons_ne_nil _ _, fun s hs => ?_⟩
  rcases List.mem_cons.mp hs with rfl | hs
  · exact properPath_reservedMemory.2 reservedMemory List.mem_cons_self
  · rw [List.mem_singleton.mp hs]
    exact ⟨hname, hslash⟩

section Lookup

variable {l : Outline Label} {name : CString} {j : ℕ}

theorem lookup_reservedMemory (l : Outline Label) :
    lookup l [reservedMemory] = child? (fun n => nodeNameEq reservedMemory n.name) l 0 :=
  descend_singleton l _ 0

theorem lookup_reservedPath (hname : '@' ∈ name) (l : Outline Label) :
    lookup l (reservedPath name)
      = (lookup l [reservedMemory]).bind (child? (fun n => n.name = name) l) := by
  have hexact : (fun n : Label => nodeNameEq name n.name) = fun n => decide (n.name = name) := by
    funext n
    rw [Bool.eq_iff_iff, nodeNameEq_iff hname, decide_eq_true_eq]
  rw [lookup_reservedMemory, lookup, reservedPath, List.map_cons, List.map_singleton, descend,
    hexact]
  congr 1
  funext i
  exact descend_singleton l _ i

theorem region_of_lookup (hname : '@' ∈ name) (h : lookup l (reservedPath name) = some j) :
    ∃ d x, l[j]? = some ⟨d, x⟩ ∧ region l name = some x := by
  rw [lookup_reservedPath hname, Option.bind_eq_some_iff] at h
  obtain ⟨i, hi, hj⟩ := h
  obtain ⟨-, d, x, hget, hfind⟩ := child?_some hj
  refine ⟨d, x, hget, ?_⟩
  rw [region, reservedNodes, hi]
  exact hfind

theorem region_eq_none_of_lookup (hname : '@' ∈ name)
    (h : lookup l (reservedPath name) = none) : region l name = none := by
  rw [lookup_reservedPath hname] at h
  rw [region, reservedNodes]
  cases hi : lookup l [reservedMemory] with
  | none => rfl
  | some i =>
      rw [hi, Option.bind_some] at h
      exact child?_none h

end Lookup

/-! ### What an assignment does -/

section Specs

variable {T : Type} {lib : Libfdt T} {doc : T → Outline DtNode} {node : T → ℤ → Option ℕ}
  {t t' : T} {off : ℤ} {pfx : CString} {base : BitVec 64}

/-- The path of a name fits its buffer. -/
theorem snprintf_reservedPath {name : CString} (h : name.length < nameSize) :
    snprintf pathSize ("/reserved-memory/".toList ++ name)
        = ((("/reserved-memory/".toList ++ name).length : ℤ), pathString (reservedPath name)) ∧
      (("/reserved-memory/".toList ++ name).length : ℤ) < pathSize := by
  have hroot : "/reserved-memory/".toList.length = 17 := by
    decide +kernel
  have hlen : ("/reserved-memory/".toList ++ name).length < pathSize := by
    rw [List.length_append, hroot]
    exact Nat.lt_of_lt_of_le (Nat.add_lt_add_left h 17) (by decide)
  refine ⟨Prod.ext rfl ?_, Int.ofNat_lt.mpr hlen⟩
  rw [← pathString_reservedPath]
  exact List.take_of_length_le (Nat.le_sub_one_of_lt hlen)

/-- The result of the lookup, by what libfdt answers. -/
theorem fdtReservedMemoryPhandle_eq {name : CString} (h : name.length < nameSize) (t : T) :
    fdtReservedMemoryPhandle lib t name
      = if lib.pathOffset t (pathString (reservedPath name)) < 0 then
          (lib.pathOffset t (pathString (reservedPath name)), 0#32)
        else if lib.getPhandle t (lib.pathOffset t (pathString (reservedPath name))) = 0#32 then
          (-fdtErrNotfound, 0#32)
        else (0, lib.getPhandle t (lib.pathOffset t (pathString (reservedPath name)))) := by
  obtain ⟨hprint, hlen⟩ := snprintf_reservedPath h
  have hnot : ¬ ((("/reserved-memory/".toList ++ name).length : ℤ) < 0 ∨
      (pathSize : ℤ) ≤ ("/reserved-memory/".toList ++ name).length) := by
    omega
  rw [fdtReservedMemoryPhandle, hprint]
  exact if_neg hnot

theorem Libfdt.Correct.phandle_spec (h : lib.Correct doc node) {name : CString} (hat : '@' ∈ name)
    (hslash : '/' ∉ name) (hlen : name.length < nameSize) (t : T) :
    (regionPhandle (labels (doc t)) name ≠ 0#32 →
        fdtReservedMemoryPhandle lib t name = (0, regionPhandle (labels (doc t)) name)) ∧
      (regionPhandle (labels (doc t)) name = 0#32 →
        (fdtReservedMemoryPhandle lib t name).1 < 0) := by
  have hname : name ≠ [] := List.ne_nil_of_mem hat
  have hpath := properPath_reservedPath hname hslash
  rw [fdtReservedMemoryPhandle_eq hlen]
  cases hlookup : lookup (labels (doc t)) (reservedPath name) with
  | none =>
      have hneg := h.missing t _ hpath hlookup
      rw [regionPhandle, region_eq_none_of_lookup hat hlookup, if_pos hneg]
      exact ⟨fun hne => absurd rfl hne, fun _ => hneg⟩
  | some j =>
      obtain ⟨hpos, hnode⟩ := h.found t _ j hpath hlookup
      obtain ⟨d, x, hget, hregion⟩ := region_of_lookup hat hlookup
      rw [regionPhandle, hregion, Option.elim_some, if_neg (not_lt.mpr hpos),
        h.get_label hnode hget]
      constructor
      · intro hne
        rw [if_neg hne]
      · intro hzero
        rw [if_pos hzero]
        decide

/-- **An assignment** appends the phandle under the name, and without one changes nothing. -/
theorem Libfdt.Correct.assign_eq (h : lib.Correct doc node) (hfits : Fits pfx base) (t : T)
    (off : ℤ) :
    (regionPhandle (labels (doc t)) (memoryName pfx base) ≠ 0#32 →
        fdtAssignReservedMemory lib t off pfx base
          = lib.appendpropU32 t off "memory-region"
              (regionPhandle (labels (doc t)) (memoryName pfx base))) ∧
      (regionPhandle (labels (doc t)) (memoryName pfx base) = 0#32 →
        (fdtAssignReservedMemory lib t off pfx base).2 = t) := by
  obtain ⟨hfound, hmissing⟩ := h.phandle_spec (at_mem_memoryName pfx base)
    (slash_not_mem_memoryName hfits.1 base) hfits.2 t
  rw [fdtAssignReservedMemory, fdtFormatMemoryName_of_lt hfits.2]
  constructor
  · intro hne
    simp only [hfound hne]
    rw [if_neg (by decide), if_neg (by decide)]
  · intro hzero
    have hneg := hmissing hzero
    dsimp only
    by_cases hnotfound :
        (fdtReservedMemoryPhandle lib t (memoryName pfx base)).1 = -fdtErrNotfound
    · rw [if_pos hnotfound]
    · rw [if_neg hnotfound, if_pos hneg]

/-! ### What a generation does -/

/-- The calls of a generation that succeeds. -/
structure ReservedNodeCalls (lib : Libfdt T) (t : T) (name : CString) (compatible : String)
    (base size : BitVec 64) (this : ℤ) (t₁ t₂ t₃ t₄ t₅ t₆ : T) : Prop where
  root_nonneg : 0 ≤ lib.pathOffset t (pathString [reservedMemory])
  add_subnode : lib.addSubnode t (lib.pathOffset t (pathString [reservedMemory])) name = (this, t₁)
  append_compatible : lib.appendpropString t₁ this "compatible" compatible = (0, t₂)
  append_base : ∃ cells, lib.appendpropUint t₂ this "reg" base cells = (0, t₃)
  append_size : ∃ cells, lib.appendpropUint t₃ this "reg" size cells = (0, t₄)
  assign_phandle : fdtAssignPhandle lib t₄ this = (0, t₅)
  memory_node : lib.generateMemoryNode t₅ base size = (0, t₆)

theorem Libfdt.Correct.fdtAssignPhandle_le (h : lib.Correct doc node) (t : T) (off : ℤ) :
    (fdtAssignPhandle lib t off).1 ≤ 0 := by
  have hneg : -fdtErrNophandles ≤ 0 := by decide
  dsimp only [fdtAssignPhandle]
  split
  · exact hneg
  · split
    · exact hneg
    · exact (h.append_u32 t off "phandle" _).1

/-- An error is negative, so a result that is not comes from what follows. -/
theorem orError_eq {call : ℤ × T} {rest : T → ℤ × T} {r : ℤ} (hle : call.1 ≤ 0)
    (h : orError call rest = (r, t')) (hr : 0 ≤ r) :
    call = (0, call.2) ∧ rest call.2 = (r, t') := by
  unfold orError at h
  split at h
  · rename_i hne
    rw [h] at hle hne
    exact absurd (le_antisymm hle hr) hne
  · rename_i hzero
    exact ⟨Prod.ext (not_not.mp hzero) rfl, h⟩

/-- A result that is not an error comes from calls that all succeed. -/
theorem Libfdt.Correct.generate_cases (h : lib.Correct doc node) {compatible : String}
    {size : BitVec 64} {r : ℤ}
    (hgen : fdtGenerateReservedNode lib t pfx compatible base size = (r, t')) (hr : 0 ≤ r) :
    (memoryName pfx base).length < nameSize ∧ ∃ t₁ t₂ t₃ t₄ t₅,
      ReservedNodeCalls lib t (memoryName pfx base) compatible base size r t₁ t₂ t₃ t₄ t₅ t' := by
  have hinternal : ¬ (0 : ℤ) ≤ -fdtErrInternal := by decide
  by_cases hfit : (memoryName pfx base).length < nameSize
  swap
  · rw [fdtGenerateReservedNode, fdtFormatMemoryName_of_le (Nat.le_of_not_lt hfit)] at hgen
    cases hgen
    exact absurd hr hinternal
  refine ⟨hfit, ?_⟩
  rw [fdtGenerateReservedNode, fdtFormatMemoryName_of_lt hfit, pathString_reservedMemory] at hgen
  simp only [ne_eq, not_true_eq_false, if_false] at hgen
  split at hgen
  · rename_i hroot
    cases hgen
    omega
  · rename_i hroot
    split at hgen
    · rename_i hthis
      rw [hgen] at hthis
      exact absurd hr (not_le.mpr hthis)
    · obtain ⟨hcompatible, hgen⟩ := orError_eq (h.append_string _ _ _ _).1 hgen hr
      obtain ⟨hbase, hgen⟩ := orError_eq (h.append_uint _ _ _ _ _).1 hgen hr
      obtain ⟨hsize, hgen⟩ := orError_eq (h.append_uint _ _ _ _ _).1 hgen hr
      obtain ⟨hphandle, hgen⟩ := orError_eq (h.fdtAssignPhandle_le _ _) hgen hr
      split at hgen
      · cases hgen
        omega
      · rename_i hmemory
        cases hgen
        exact ⟨_, _, _, _, _, not_lt.mp hroot, rfl, hcompatible, ⟨_, hbase⟩, ⟨_, hsize⟩, hphandle,
          Prod.ext (not_not.mp hmemory) rfl⟩

/-- A phandle above all others. -/
theorem Libfdt.Correct.assignPhandle_cases (h : lib.Correct doc node)
    (hassign : fdtAssignPhandle lib t off = (0, t')) :
    ∃ p, p ≠ 0#32 ∧ p ∉ phandles (labels (doc t)) ∧
      Appends doc node t off "phandle" (fdt32 p) t' := by
  have hneg : ¬ -fdtErrNophandles = (0 : ℤ) := by decide
  dsimp only [fdtAssignPhandle] at hassign
  split at hassign
  · exact absurd (congrArg Prod.fst hassign) hneg
  · rename_i hmax
    split at hassign
    · exact absurd (congrArg Prod.fst hassign) hneg
    · rename_i hguard
      rw [not_or] at hguard
      refine ⟨lib.getMaxPhandle t + 1#32, by bv_omega, fun hmem => ?_, h.u32_appends hassign⟩
      obtain ⟨hp, -⟩ := List.mem_filter.mp hmem
      obtain ⟨e, he, hval⟩ := List.mem_map.mp hp
      obtain ⟨n, hn, rfl⟩ := List.mem_map.mp he
      have hval' : n.val.phandle = lib.getMaxPhandle t + 1#32 := hval
      rcases h.max_phandle t hmax n hn with hle | hinvalid
      · rw [hval'] at hle
        bv_omega
      · exact hguard.2 (hval'.symm.trans hinvalid)

/-- The second document has one node more: under `/reserved-memory`, where `nodes` are, with a name
and a phandle of its own. -/
structure AddsRegion (l l' : Outline Label) (name : CString) (p : BitVec 32) (nodes : List Label) :
    Prop where
  before : reservedNodes l = some nodes
  after : reservedNodes l' = some (⟨name, p⟩ :: nodes)
  unused : ∀ x ∈ nodes, x.name ≠ name
  ne_zero : p ≠ 0#32
  fresh : p ∉ phandles l
  phandles_perm : (phandles l').Perm (p :: phandles l)

/-- The new node under `/reserved-memory`. -/
theorem reservedNodes_insert {l : Outline Label} {i : ℕ} (hi : lookup l [reservedMemory] = some i)
    (x : Label) :
    reservedNodes (insertChild l i x) = some (x :: children l i) := by
  have hlt := lt_length_of_descend (List.cons_ne_nil _ _) hi
  have hlookup : lookup (insertChild l i x) [reservedMemory] = some i := descend_insertChild hi x
  rw [reservedNodes, hlookup, Option.map_some,
    children_insertChild (List.getElem?_eq_getElem hlt)]

/-- The properties that a new node gets before its phandle. -/
def reservedNode (name : CString) (compatible base size : List Byte) : DtNode :=
  (((DtNode.new name).append "compatible" compatible).append "reg" base).append "reg" size

theorem reservedNode_phandle (name : CString) (compatible base size : List Byte) (p : BitVec 32) :
    ((reservedNode name compatible base size).append "phandle" (fdt32 p)).label = ⟨name, p⟩ :=
  label_append_phandle (by simp [reservedNode, DtNode.append, DtNode.new]) p

theorem reservedNode_label (name : CString) (compatible base size : List Byte) :
    (reservedNode name compatible base size).label = ⟨name, 0#32⟩ := by
  rw [reservedNode, label_append (by decide) (by decide), label_append (by decide) (by decide),
    label_append (by decide) (by decide)]
  rfl

/-- What the document is when the phandle is assigned, and after it. -/
theorem Libfdt.Correct.calls_insert (h : lib.Correct doc node) {name : CString}
    {compatible : String} {size : BitVec 64} {r : ℤ} {t₁ t₂ t₃ t₄ t₅ : T}
    (hcalls : ReservedNodeCalls lib t name compatible base size r t₁ t₂ t₃ t₄ t₅ t') (hr : 0 ≤ r) :
    ∃ i p, lookup (labels (doc t)) [reservedMemory] = some i ∧
      (∀ x ∈ children (labels (doc t)) i, x.name ≠ name) ∧ p ≠ 0#32 ∧
      p ∉ phandles (labels (doc t₄)) ∧
      labels (doc t₄) = insertChild (labels (doc t)) i ⟨name, 0#32⟩ ∧
      labels (doc t₅) = insertChild (labels (doc t)) i ⟨name, p⟩ := by
  have hadd := h.add_subnode t (lib.pathOffset t (pathString [reservedMemory])) name
  rw [hcalls.add_subnode] at hadd
  obtain ⟨i, hnode, hunused, hdoc₁, hnode₁⟩ := hadd hr
  obtain ⟨e, he⟩ : ∃ e, (doc t)[i]? = some e :=
    ⟨_, List.getElem?_eq_getElem (h.node_lt _ _ _ hnode)⟩
  have hlookup : lookup (labels (doc t)) [reservedMemory] = some i := by
    cases hl : lookup (labels (doc t)) [reservedMemory] with
    | none =>
        have hneg := h.missing t _ properPath_reservedMemory hl
        exact absurd hcalls.root_nonneg (not_le.mpr hneg)
    | some j =>
        rw [← hnode]
        exact (h.found t _ j properPath_reservedMemory hl).2.symm
  -- the calls that append see the new node at the offset that `fdt_add_subnode` returned
  obtain ⟨bytes, hcompatible⟩ := h.string_appends hcalls.append_compatible
  obtain ⟨hdoc₂, hnode₂⟩ := hcompatible.insertChild he hdoc₁ hnode₁
  obtain ⟨cells, hcall⟩ := hcalls.append_base
  obtain ⟨bytes', hbase⟩ := h.uint_appends hcall
  obtain ⟨hdoc₃, hnode₃⟩ := hbase.insertChild he hdoc₂ hnode₂
  obtain ⟨cells, hcall⟩ := hcalls.append_size
  obtain ⟨bytes'', hsize⟩ := h.uint_appends hcall
  obtain ⟨hdoc₄, hnode₄⟩ := hsize.insertChild he hdoc₃ hnode₃
  obtain ⟨p, hne, hfresh, hphandle⟩ := h.assignPhandle_cases hcalls.assign_phandle
  obtain ⟨hdoc₅, -⟩ := hphandle.insertChild he hdoc₄ hnode₄
  refine ⟨i, p, hlookup, fun x hx => ?_, hne, hfresh, ?_, ?_⟩
  · rw [labels, children_map] at hx
    obtain ⟨n, hn, rfl⟩ := List.mem_map.mp hx
    exact hunused n hn
  · rw [hdoc₄, labels, insertChild_map]
    exact congrArg (insertChild _ i) (reservedNode_label name bytes bytes' bytes'')
  · rw [hdoc₅, labels, insertChild_map]
    exact congrArg (insertChild _ i) (reservedNode_phandle name bytes bytes' bytes'' p)

/-- **A generation** adds a node with the name and a new phandle. -/
theorem Libfdt.Correct.generate_adds (h : lib.Correct doc node) {compatible : String}
    {size : BitVec 64} {r : ℤ}
    (hgen : fdtGenerateReservedNode lib t pfx compatible base size = (r, t')) (hr : 0 ≤ r) :
    (memoryName pfx base).length < nameSize ∧ ∃ p nodes,
      AddsRegion (labels (doc t)) (labels (doc t')) (memoryName pfx base) p nodes := by
  obtain ⟨hfit, t₁, t₂, t₃, t₄, t₅, hcalls⟩ := h.generate_cases hgen hr
  obtain ⟨i, p, hlookup, hunused, hne, hfresh, hlabels₄, hlabels₅⟩ := h.calls_insert hcalls hr
  have hlt := lt_length_of_descend (List.cons_ne_nil _ _) hlookup
  have hget := List.getElem?_eq_getElem hlt
  have hmemory := h.memory_node t₅ base size
  rw [hcalls.memory_node] at hmemory
  obtain ⟨hperm, hreserved⟩ := hmemory rfl
  have hperm₄ := phandles_insertChild hget ⟨memoryName pfx base, 0#32⟩
  have hperm₅ := phandles_insertChild hget ⟨memoryName pfx base, p⟩
  rw [← hlabels₄, if_pos rfl] at hperm₄
  rw [← hlabels₅, if_neg hne] at hperm₅
  refine ⟨hfit, p, children (labels (doc t)) i, ⟨?_, ?_, hunused, hne, ?_, hperm.trans hperm₅⟩⟩
  · rw [reservedNodes, hlookup, Option.map_some]
  · rw [hreserved, hlabels₅, reservedNodes_insert hlookup]
  · exact fun hmem => hfresh (hperm₄.mem_iff.mpr hmem)

end Specs

/-! ### Sequences of calls -/

/-- A call from `guest_configure`. -/
inductive Call where
  | generate (pfx : CString) (compatible : String) (base size : BitVec 64)
  | assign (off : ℤ) (pfx : CString) (base : BitVec 64)

/-- A successful call. -/
def callStep {T : Type} (lib : Libfdt T) (fdt : T) : Call → Option T
  | .generate pfx compatible base size =>
      let r := fdtGenerateReservedNode lib fdt pfx compatible base size
      if 0 ≤ r.1 then some r.2 else none
  | .assign off pfx base =>
      let r := fdtAssignReservedMemory lib fdt off pfx base
      if r.1 = 0 then some r.2 else none

/-- Successful calls on a tree, in any order. -/
def callLts {T : Type} (lib : Libfdt T) (fdt : T) : Lts T Call :=
  .ofFun (fun t => t = fdt) (callStep lib)

section Runs

variable {T : Type} {lib : Libfdt T} {doc : T → Outline DtNode} {node : T → ℤ → Option ℕ}
  {t₀ t t' : T} {off : ℤ} {pfx : CString} {base : BitVec 64} {l l' : Outline Label}
  {name : CString} {p : BitVec 32} {nodes : List Label}

theorem AddsRegion.nodup (h : AddsRegion l l' name p nodes) (hl : (phandles l).Nodup) :
    (phandles l').Nodup :=
  h.phandles_perm.nodup_iff.mpr (List.nodup_cons.mpr ⟨h.fresh, hl⟩)

theorem AddsRegion.region_self (h : AddsRegion l l' name p nodes) :
    region l' name = some ⟨name, p⟩ := by
  rw [region, h.after, Option.bind_some, List.find?_cons_of_pos (by simp)]

theorem region_name {x : Label} (h : region l name = some x) : x.name = name := by
  obtain ⟨nodes, -, hfind⟩ := Option.bind_eq_some_iff.mp h
  simpa using List.find?_some hfind

/-- A name that is found before is found after. -/
theorem AddsRegion.region_keep (h : AddsRegion l l' name p nodes) {n : CString} {x : Label}
    (hx : region l n = some x) : region l' n = some x := by
  have hname := region_name hx
  rw [region, h.before, Option.bind_some] at hx
  have hne : name ≠ n := by
    rintro rfl
    exact h.unused x (List.mem_of_find?_eq_some hx) hname
  rw [region, h.after, Option.bind_some, List.find?_cons_of_neg (by simpa using hne), hx]

/-- A successful assignment leaves the labels. -/
theorem Libfdt.Correct.assign_labels (h : lib.Correct doc node)
    (hassign : fdtAssignReservedMemory lib t off pfx base = (0, t')) :
    labels (doc t') = labels (doc t) := by
  have hneg : ¬ (-1 : ℤ) = 0 := by decide
  dsimp only [fdtAssignReservedMemory] at hassign
  split at hassign
  · cases hassign
    rfl
  · split at hassign
    · exact absurd (congrArg Prod.fst hassign) hneg
    · exact (h.u32_appends hassign).labels_eq (by decide) (by decide)

/-- **Step inversion.** -/
theorem Libfdt.Correct.call_cases (h : lib.Correct doc node) {c : Call}
    (hs : callStep lib t c = some t') :
    labels (doc t') = labels (doc t) ∨ ∃ name p nodes,
      AddsRegion (labels (doc t)) (labels (doc t')) name p nodes := by
  cases c with
  | generate pfx compatible base size =>
      simp only [callStep] at hs
      split at hs
      · rename_i hr
        cases hs
        obtain ⟨-, p, nodes, hadds⟩ := h.generate_adds rfl hr
        exact Or.inr ⟨_, p, nodes, hadds⟩
      · cases hs
  | assign off pfx base =>
      simp only [callStep] at hs
      split at hs
      · rename_i hr
        cases hs
        exact Or.inl (h.assign_labels (Prod.ext hr rfl))
      · cases hs

/-- **Phandles stay distinct.** -/
theorem Libfdt.Correct.run_nodup (h : lib.Correct doc node) {calls : List Call}
    (hrun : (callLts lib t₀).Run t calls t') (hnodup : (phandles (labels (doc t))).Nodup) :
    (phandles (labels (doc t'))).Nodup := by
  refine hrun.invariant (I := fun t => (phandles (labels (doc t))).Nodup) (fun t c t' ht hs => ?_)
    hnodup
  rcases h.call_cases hs with hsame | ⟨name, p, nodes, hadds⟩
  · rw [hsame]
    exact ht
  · exact hadds.nodup ht

/-- **A name resolves to the same node for ever.** -/
theorem Libfdt.Correct.run_region (h : lib.Correct doc node) {calls : List Call} {x : Label}
    (hrun : (callLts lib t₀).Run t calls t') (hx : region (labels (doc t)) name = some x) :
    region (labels (doc t')) name = some x := by
  refine hrun.invariant (I := fun t => region (labels (doc t)) name = some x)
    (fun t c t' ht hs => ?_) hx
  rcases h.call_cases hs with hsame | ⟨name', p, nodes, hadds⟩
  · rw [hsame]
    exact ht
  · exact hadds.region_keep ht

/-- What a successful assignment appends, if anything. -/
theorem Libfdt.Correct.assign_cases (h : lib.Correct doc node) (hfits : Fits pfx base)
    (hassign : fdtAssignReservedMemory lib t off pfx base = (0, t')) :
    (∃ x, region (labels (doc t)) (memoryName pfx base) = some x ∧ x.phandle ≠ 0#32 ∧
        Appends doc node t off "memory-region" (fdt32 x.phandle) t') ∨
      (regionPhandle (labels (doc t)) (memoryName pfx base) = 0#32 ∧ t' = t) := by
  obtain ⟨happends, hkeeps⟩ := h.assign_eq hfits t off
  by_cases hzero : regionPhandle (labels (doc t)) (memoryName pfx base) = 0#32
  · have hsame := hkeeps hzero
    rw [hassign] at hsame
    exact Or.inr ⟨hzero, hsame⟩
  · have happend := h.u32_appends ((happends hzero).symm.trans hassign)
    rw [regionPhandle] at hzero happend
    cases hregion : region (labels (doc t)) (memoryName pfx base) with
    | none =>
        rw [hregion] at hzero
        exact absurd rfl hzero
    | some x =>
        rw [hregion] at hzero happend
        exact Or.inl ⟨x, rfl, hzero, happend⟩

/-- Different names lead to different nodes. -/
theorem Libfdt.Correct.node_ne (h : lib.Correct doc node) {name' : CString} (hat : '@' ∈ name)
    (hslash : '/' ∉ name) (hat' : '@' ∈ name') (hslash' : '/' ∉ name') (hne : name ≠ name') (t : T)
    (hoff : 0 ≤ lib.pathOffset t (pathString (reservedPath name)))
    (hoff' : 0 ≤ lib.pathOffset t (pathString (reservedPath name'))) :
    node t (lib.pathOffset t (pathString (reservedPath name)))
      ≠ node t (lib.pathOffset t (pathString (reservedPath name'))) := by
  have hresolves : ∀ name, '@' ∈ name → '/' ∉ name →
      0 ≤ lib.pathOffset t (pathString (reservedPath name)) →
      ∃ j d x, node t (lib.pathOffset t (pathString (reservedPath name))) = some j ∧
        (labels (doc t))[j]? = some ⟨d, x⟩ ∧ x.name = name := by
    intro name hat hslash hoff
    have hpath := properPath_reservedPath (List.ne_nil_of_mem hat) hslash
    cases hlookup : lookup (labels (doc t)) (reservedPath name) with
    | none => exact absurd hoff (not_le.mpr (h.missing t _ hpath hlookup))
    | some j =>
        obtain ⟨d, x, hget, hregion⟩ := region_of_lookup hat hlookup
        exact ⟨j, d, x, (h.found t _ j hpath hlookup).2, hget, region_name hregion⟩
  obtain ⟨j, d, x, hnode, hget, hname⟩ := hresolves name hat hslash hoff
  obtain ⟨j', d', x', hnode', hget', hname'⟩ := hresolves name' hat' hslash' hoff'
  rw [hnode, hnode']
  intro heq
  cases heq
  rw [hget] at hget'
  cases hget'
  exact hne (hname.symm.trans hname')

end Runs

/-! ### What holds over any sequence of successful calls -/

/-- What the nodes under `/reserved-memory` promise, on a tree that is `t₀` at first. -/
structure ReservedMemoryHolds {T : Type} (lib : Libfdt T) (doc : T → Outline DtNode)
    (node : T → ℤ → Option ℕ) (t₀ : T) : Prop where
  distinct : ∀ calls t, (callLts lib t₀).Run t₀ calls t → (phandles (labels (doc t))).Nodup
  /-- the node that a generation adds is the one that later assignments attach -/
  generated : ∀ calls t₁ pfx compatible base size t₂ calls' t₃,
    (callLts lib t₀).Run t₀ calls t₁ →
    callStep lib t₁ (.generate pfx compatible base size) = some t₂ →
    (callLts lib t₀).Run t₂ calls' t₃ → '/' ∉ pfx →
    ∃ nodes p, p ≠ 0#32 ∧ reservedNodes (labels (doc t₁)) = some nodes ∧
      reservedNodes (labels (doc t₂)) = some (⟨memoryName pfx base, p⟩ :: nodes) ∧
      ∀ off t₄, fdtAssignReservedMemory lib t₃ off pfx base = (0, t₄) →
        Appends doc node t₃ off "memory-region" (fdt32 p) t₄
  /-- an assignment attaches the node of the name, or there is none or it has no phandle -/
  resolves : ∀ calls t pfx base off t', (callLts lib t₀).Run t₀ calls t → Fits pfx base →
    fdtAssignReservedMemory lib t off pfx base = (0, t') →
    (∃ x, region (labels (doc t)) (memoryName pfx base) = some x ∧ x.phandle ≠ 0#32 ∧
        Appends doc node t off "memory-region" (fdt32 x.phandle) t') ∨
      (regionPhandle (labels (doc t)) (memoryName pfx base) = 0#32 ∧ t' = t)
  /-- two areas never resolve to one node -/
  apart : ∀ t pfx base pfx' base', '/' ∉ pfx → '/' ∉ pfx' → (pfx, base) ≠ (pfx', base') →
    0 ≤ lib.pathOffset t (pathString (reservedPath (memoryName pfx base))) →
    0 ≤ lib.pathOffset t (pathString (reservedPath (memoryName pfx' base'))) →
    node t (lib.pathOffset t (pathString (reservedPath (memoryName pfx base))))
      ≠ node t (lib.pathOffset t (pathString (reservedPath (memoryName pfx' base'))))

/-- **Generation and assignment agree.**  On a tree with distinct phandles and a libfdt that does
what is documented of it. -/
theorem reserved_memory_resolves {T : Type} {lib : Libfdt T} {doc : T → Outline DtNode}
    {node : T → ℤ → Option ℕ} (h : lib.Correct doc node) {t₀ : T}
    (hdistinct : (phandles (labels (doc t₀))).Nodup) : ReservedMemoryHolds lib doc node t₀ where
  distinct _ _ hrun := h.run_nodup hrun hdistinct
  generated calls t₁ pfx compatible base size t₂ calls' t₃ _ hgen hrun hslash := by
    simp only [callStep] at hgen
    split at hgen
    · rename_i hr
      cases hgen
      obtain ⟨hfit, p, nodes, hadds⟩ := h.generate_adds rfl hr
      refine ⟨nodes, p, hadds.ne_zero, hadds.before, hadds.after, fun off t₄ hassign => ?_⟩
      have hregion := h.run_region hrun hadds.region_self
      rcases h.assign_cases ⟨hslash, hfit⟩ hassign with ⟨x, hx, -, happend⟩ | ⟨hzero, -⟩
      · rw [hregion] at hx
        cases hx
        exact happend
      · rw [regionPhandle, hregion] at hzero
        exact absurd hzero hadds.ne_zero
    · cases hgen
  resolves _ _ _ _ _ _ _ hfits hassign := h.assign_cases hfits hassign
  apart t pfx base pfx' base' hslash hslash' hne := by
    refine h.node_ne (at_mem_memoryName pfx base) (slash_not_mem_memoryName hslash base)
      (at_mem_memoryName pfx' base') (slash_not_mem_memoryName hslash' base') (fun hname => ?_) t
    obtain ⟨rfl, rfl⟩ := memoryName_inj hname
    exact hne rfl

/-- A node without properties. -/
def bareNode (depth : ℕ) (name : String) : Item DtNode := ⟨depth, .new name.toList⟩

/-- A tree with `/reserved-memory` and a device. -/
def boardTree : Outline DtNode :=
  [bareNode 0 "", bareNode 1 "reserved-memory", bareNode 1 "pci", bareNode 2 "virtio@1,0"]

/-- `reserved_memory_resolves` for the bounce buffer of the device. -/
theorem reserved_memory_resolves_swiotlb :
    ∃ p, p ≠ 0#32 ∧ ∀ off t, fdtAssignReservedMemory documentLibfdt
      (fdtGenerateReservedNode documentLibfdt boardTree "swiotlb".toList "restricted-dma-pool"
        0x1000#64 0x1000#64).2 off "swiotlb".toList 0x1000#64 = (0, t) →
      Appends id documentNode (fdtGenerateReservedNode documentLibfdt boardTree "swiotlb".toList
        "restricted-dma-pool" 0x1000#64 0x1000#64).2 off "memory-region" (fdt32 p) t := by
  have hdistinct : (phandles (labels (id boardTree))).Nodup := by
    decide +kernel
  have hr : 0 ≤ (fdtGenerateReservedNode documentLibfdt boardTree "swiotlb".toList
      "restricted-dma-pool" 0x1000#64 0x1000#64).1 := by
    decide +kernel
  have hslash : '/' ∉ "swiotlb".toList := by
    decide +kernel
  obtain ⟨-, p, hne, -, -, hassign⟩ := (reserved_memory_resolves documentLibfdt_correct
    hdistinct).generated [] boardTree _ _ _ _ _ [] _ (.nil _) (if_pos hr) (.nil _) hslash
  exact ⟨p, hne, hassign⟩

/-- An assignment attaches a node that was generated, or there is none of the name. -/
def AssignsGenerated {T : Type} (lib : Libfdt T) (doc : T → Outline DtNode)
    (node : T → ℤ → Option ℕ) (t₀ : T) : Prop :=
  ∀ calls t pfx base off t', (callLts lib t₀).Run t₀ calls t → Fits pfx base →
    fdtAssignReservedMemory lib t off pfx base = (0, t') →
    (∃ compatible size p, Call.generate pfx compatible base size ∈ calls ∧
        Appends doc node t off "memory-region" (fdt32 p) t') ∨
      (region (labels (doc t)) (memoryName pfx base) = none ∧ t' = t)

/-- The tree of a board that comes with a bounce buffer of its own. -/
def preparedTree : Outline DtNode :=
  [bareNode 0 "", bareNode 1 "reserved-memory",
    ⟨2, (DtNode.new "swiotlb@1000".toList).append "phandle" (fdt32 5#32)⟩, bareNode 1 "pci",
    bareNode 2 "virtio@1,0"]

/-- **A node that was there before is attached too.** -/
theorem prepared_node_attached :
    (phandles (labels preparedTree)).Nodup ∧
      ¬ AssignsGenerated documentLibfdt id documentNode preparedTree := by
  refine ⟨by decide +kernel, fun hgenerated => ?_⟩
  have hfits : Fits "swiotlb".toList 0x1000#64 := ⟨by decide +kernel, by decide +kernel⟩
  have hret : (fdtAssignReservedMemory documentLibfdt preparedTree 4 "swiotlb".toList
      0x1000#64).1 = 0 := by
    decide +kernel
  have hregion : region (labels preparedTree) (memoryName "swiotlb".toList 0x1000#64) ≠ none := by
    decide +kernel
  rcases hgenerated [] preparedTree "swiotlb".toList 0x1000#64 4 _ (.nil _) hfits
    (Prod.ext hret rfl) with ⟨_, _, _, hmem, -⟩ | ⟨hnone, -⟩
  · exact List.not_mem_nil hmem
  · exact hregion hnone

end TiiSel4Vm.Fdt
