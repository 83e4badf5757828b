import TiiSel4Vm.Fdt.ReservedMemory

/-!
# Names that do not fit

`fdt_format_memory_name` reports that a name does not fit its buffer of 64 bytes, but
`fdt_assign_reserved_memory` drops the report and looks up what is in the buffer: the first 63
characters.

* `Refuses` — what a call with such a name should do;
* `long_name_refused_iff` — when it does;
* `truncated_name_attached` — a device gets the memory of another one.
-/

namespace TiiSel4Vm.Fdt

/-- The path that is looked up for a name that does not fit. -/
def truncatedPath (pfx : CString) (base : BitVec 64) : CString :=
  pathString (reservedPath ((memoryName pfx base).take (nameSize - 1)))

/-- The call fails and leaves the tree. -/
def Refuses {T : Type} (lib : Libfdt T) (fdt : T) (off : ℤ) (pfx : CString) (base : BitVec 64) :
    Prop :=
  (fdtAssignReservedMemory lib fdt off pfx base).1 ≠ 0 ∧
    (fdtAssignReservedMemory lib fdt off pfx base).2 = fdt

section LongNames

variable {T : Type} (lib : Libfdt T) (fdt : T) (off : ℤ) {pfx : CString} {base : BitVec 64}

/-- What is looked up instead. -/
theorem fdtReservedMemoryPhandle_truncated (pfx : CString) (base : BitVec 64) :
    fdtReservedMemoryPhandle lib fdt ((memoryName pfx base).take (nameSize - 1))
      = if lib.pathOffset fdt (truncatedPath pfx base) < 0 then
          (lib.pathOffset fdt (truncatedPath pfx base), 0#32)
        else if lib.getPhandle fdt (lib.pathOffset fdt (truncatedPath pfx base)) = 0#32 then
          (-fdtErrNotfound, 0#32)
        else (0, lib.getPhandle fdt (lib.pathOffset fdt (truncatedPath pfx base))) := by
  refine fdtReservedMemoryPhandle_eq ?_ fdt
  exact (List.length_take_le _ _).trans_lt (by decide)

/-- **A name that does not fit is refused exactly when** the lookup of its first 63 characters fails
for another reason than that there is no such node, or finds a node with a phandle that cannot be
appended. -/
theorem long_name_refused_iff (hlong : nameSize ≤ (memoryName pfx base).length) :
    Refuses lib fdt off pfx base ↔
      (lib.pathOffset fdt (truncatedPath pfx base) < 0 ∧
          lib.pathOffset fdt (truncatedPath pfx base) ≠ -fdtErrNotfound) ∨
        (0 ≤ lib.pathOffset fdt (truncatedPath pfx base) ∧
          lib.getPhandle fdt (lib.pathOffset fdt (truncatedPath pfx base)) ≠ 0#32 ∧
          (lib.appendpropU32 fdt off "memory-region"
            (lib.getPhandle fdt (lib.pathOffset fdt (truncatedPath pfx base)))).1 ≠ 0 ∧
          (lib.appendpropU32 fdt off "memory-region"
            (lib.getPhandle fdt (lib.pathOffset fdt (truncatedPath pfx base)))).2 = fdt) := by
  rw [Refuses, fdtAssignReservedMemory, fdtFormatMemoryName_of_le hlong]
  dsimp only
  rw [fdtReservedMemoryPhandle_truncated]
  generalize lib.pathOffset fdt (truncatedPath pfx base) = o
  by_cases hneg : o < 0
  · rw [if_pos hneg]
    by_cases hmissing : o = -fdtErrNotfound
    · simp [hmissing]
    · simp [hneg, hmissing, not_le.mpr hneg]
  · rw [if_neg hneg]
    by_cases hzero : lib.getPhandle fdt o = 0#32
    · simp [hneg, hzero]
    · simp [hneg, hzero, not_lt.mp hneg]

end LongNames

/-! ### A truncated name that exists -/

/-- A prefix whose name fits with an address of one digit, and with no longer one. -/
def longPrefix : CString := List.replicate 61 'a'

/-- The tree after the memory at address 1 was generated. -/
def longNameTree : Outlines.Outline DtNode :=
  (fdtGenerateReservedNode documentLibfdt boardTree longPrefix "restricted-dma-pool" 0x1#64
    0x1000#64).2

/-- `long_name_refused_iff` for an offset where no node begins. -/
theorem long_name_refused_badoffset :
    Refuses documentLibfdt longNameTree 100 longPrefix 0x10#64 := by
  have hoff : ¬ (0 ≤ (100 : ℤ) ∧ (100 : ℤ).toNat < longNameTree.length) := by
    decide +kernel
  have happend : ∀ x, documentLibfdt.appendpropU32 longNameTree 100 "memory-region" x
      = (-fdtErrBadoffset, longNameTree) := by
    intro x
    show appendprop longNameTree 100 "memory-region" (fdt32 x) = _
    rw [appendprop, if_neg hoff]
  refine (long_name_refused_iff documentLibfdt longNameTree 100 (by decide +kernel)).mpr
    (Or.inr ⟨by decide +kernel, by decide +kernel, ?_, ?_⟩)
  · rw [happend]
    decide
  · rw [happend]

/-- **A device gets the memory of another one.**  The address is 16, and what is attached is the
phandle of the memory at address 1. -/
theorem truncated_name_attached :
    nameSize ≤ (memoryName longPrefix 0x10#64).length ∧
      ¬ Refuses documentLibfdt longNameTree 5 longPrefix 0x10#64 ∧
      ((fdtAssignReservedMemory documentLibfdt longNameTree 5 longPrefix 0x10#64).2[5]?.bind
          fun e => e.val.prop "memory-region")
        = some (fdt32 (regionPhandle (labels longNameTree) (memoryName longPrefix 0x1#64))) ∧
      regionPhandle (labels longNameTree) (memoryName longPrefix 0x1#64) ≠ 0#32 := by
  have hret : (fdtAssignReservedMemory documentLibfdt longNameTree 5 longPrefix 0x10#64).1 = 0 := by
    decide +kernel
  exact ⟨by decide +kernel, fun hrefuses => hrefuses.1 hret, by decide +kernel, by decide +kernel⟩

end TiiSel4Vm.Fdt
