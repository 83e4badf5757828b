import TiiSel4Vm.Fdt.ReservedMemory
import TiiSel4Vm.Vmm.Devices

/-!
# PCI devices in the device tree

`fdt_generate_pci_config` adds a node under `/pci` for every registered PCI device, named after the
slot and the function, with the address of its configuration space and the phandle of its bounce
buffer, if there is one.

* `devfnName_congr` — the name has the slot and the function, and no more;
* `generatePciNode_cases` — what a successful generation adds;
* `pci_config_describes` — what the tree says of the devices afterwards.
-/

namespace TiiSel4Vm.Fdt

open TiiSel4Vm.Outlines TiiSel4Vm.Devices

/-! ### Names -/

/-- `PCI_FUNC`. -/
def pciFunc (devfn : BitVec 32) : BitVec 32 := devfn &&& 0x07#32

/-- What `"%s@%u,%u"` stands for. -/
def devfnName (pfx : CString) (devfn : BitVec 32) : CString :=
  pfx ++ '@' :: (Nat.toDigits 10 (pciSlot devfn).toNat ++
    ',' :: Nat.toDigits 10 (pciFunc devfn).toNat)

/-- `fdt_format_pci_devfn_name`. -/
def fdtFormatPciDevfnName (len : ℕ) (pfx : CString) (devfn : BitVec 32) : ℤ × CString :=
  fdtFormat len (devfnName pfx devfn)

theorem fdtFormat_of_lt {len : ℕ} {s : CString} (h : s.length < len) :
    fdtFormat len s = (0, s) := by
  have hnot : ¬ ((s.length : ℤ) < 0 ∨ (len : ℤ) ≤ s.length) := by omega
  exact Prod.ext (if_neg hnot) (List.take_of_length_le (Nat.le_sub_one_of_lt h))

theorem fdtFormat_of_le {len : ℕ} {s : CString} (h : len ≤ s.length) :
    (fdtFormat len s).1 = -fdtErrInternal := by
  have hlong : (s.length : ℤ) < 0 ∨ (len : ℤ) ≤ s.length := by omega
  exact if_pos hlong

theorem pciSlot_toNat (devfn : BitVec 32) : (pciSlot devfn).toNat = devfn.toNat / 8 % 32 := by
  rw [pciSlot, BitVec.toNat_and, BitVec.toNat_ushiftRight, Nat.shiftRight_eq_div_pow]
  exact Nat.and_two_pow_sub_one_eq_mod _ 5

theorem pciFunc_toNat (devfn : BitVec 32) : (pciFunc devfn).toNat = devfn.toNat % 8 := by
  rw [pciFunc, BitVec.toNat_and]
  exact Nat.and_two_pow_sub_one_eq_mod _ 3

theorem devfn_toNat (devfn : BitVec 32) : (devfn &&& 0xff#32).toNat = devfn.toNat % 256 := by
  rw [BitVec.toNat_and]
  exact Nat.and_two_pow_sub_one_eq_mod _ 8

theorem at_mem_devfnName (pfx : CString) (devfn : BitVec 32) : '@' ∈ devfnName pfx devfn :=
  List.mem_append_right pfx List.mem_cons_self

/-- The name has no more than the low eight bits. -/
theorem devfnName_congr {pfx : CString} {devfn devfn' : BitVec 32}
    (h : devfn &&& 0xff#32 = devfn' &&& 0xff#32) : devfnName pfx devfn = devfnName pfx devfn' := by
  have hlow := congrArg BitVec.toNat h
  rw [devfn_toNat, devfn_toNat] at hlow
  have hslot : devfn.toNat / 8 % 32 = devfn'.toNat / 8 % 32 := by omega
  have hfunc : devfn.toNat % 8 = devfn'.toNat % 8 := by omega
  rw [devfnName, devfnName, pciSlot_toNat, pciSlot_toNat, pciFunc_toNat, pciFunc_toNat, hslot,
    hfunc]

/-! ### The functions -/

section Functions

variable {T : Type} (lib : Libfdt T)

/-- `for (int j = 0; !err && j < n; j++) err = fdt_appendprop_u32(fdt, this, "reg", 0);` -/
def appendZeros (this : ℤ) : ℕ → ℤ × T → ℤ × T
  | 0, r => r
  | n + 1, r =>
      if r.1 ≠ 0 then r else appendZeros this n (lib.appendpropU32 r.2 this "reg" 0#32)

/-- `fdt_generate_pci_node`. -/
def fdtGeneratePciNode (fdt : T) (pfx : CString) (devfn : BitVec 32) : ℤ × T :=
  let rootOffset := lib.pathOffset fdt "/pci".toList
  if rootOffset < 0 then (rootOffset, fdt)
  else
    let name := fdtFormatPciDevfnName nameSize pfx devfn
    if name.1 ≠ 0 then (-fdtErrInternal, fdt)
    else
      let this := lib.addSubnode fdt rootOffset name.2
      if this.1 < 0 then this
      else
        let err := lib.appendpropU32 this.2 this.1 "reg" ((devfn &&& 0xff#32) <<< 8)
        orError (appendZeros lib this.1 4 err) fun fdt => (this.1, fdt)

/-- `fdt_generate_pci_config` for the devices in `pci_devs`; `dataBase` is the field `data_base` of
an `io_proxy_t`. -/
def fdtGeneratePciConfig {β : Type} (dataBase : β → BitVec 64) : List (Pcidev β) → T → ℤ × T
  | [], fdt => (0, fdt)
  | pcidev :: pciDevs, fdt =>
      let this := fdtGeneratePciNode lib fdt "virtio".toList pcidev.devfn
      if this.1 ≤ 0 then (-1, this.2)
      else
        let err := fdtAssignReservedMemory lib this.2 this.1 "swiotlb".toList
          (dataBase pcidev.ioProxy)
        if err.1 ≠ 0 then (-1, err.2) else fdtGeneratePciConfig dataBase pciDevs err.2

end Functions

/-! ### The node of a device -/

def pci : CString := "pci".toList

/-- The property `reg`: `phys.hi` has the slot and the function, on bus 0, and the other four cells
are zero. -/
def pciReg (devfn : BitVec 32) : List Byte :=
  fdt32 (pciSlot devfn <<< 11 ||| pciFunc devfn <<< 8) ++ List.replicate 16 0#8

/-- The node of a device, with the phandle of its bounce buffer; 0 if it has none. -/
def pciNode (devfn phandle : BitVec 32) : DtNode where
  name := devfnName "virtio".toList devfn
  prop key :=
    if key = "reg" then some (pciReg devfn)
    else if key = "memory-region" ∧ phandle ≠ 0#32 then some (fdt32 phandle)
    else none

/-- The source shifts the two fields together. -/
theorem phys_hi_eq (devfn : BitVec 32) :
    (devfn &&& 0xff#32) <<< 8 = pciSlot devfn <<< 11 ||| pciFunc devfn <<< 8 := by
  have hslot : (0x1f#32 : BitVec 32) = BitVec.ofNat 32 (2 ^ 5 - 1) := rfl
  have hfunc : (0x07#32 : BitVec 32) = BitVec.ofNat 32 (2 ^ 3 - 1) := rfl
  have hboth : (0xff#32 : BitVec 32) = BitVec.ofNat 32 (2 ^ 8 - 1) := rfl
  apply BitVec.eq_of_getLsbD_eq
  intro i hi
  rw [pciSlot, pciFunc, hslot, hfunc, hboth]
  simp only [BitVec.getLsbD_or, BitVec.getLsbD_and, BitVec.getLsbD_shiftLeft,
    BitVec.getLsbD_ushiftRight, BitVec.getLsbD_ofNat, Nat.testBit_two_pow_sub_one]
  -- the function is in bits 8 to 10, and the slot in bits 11 to 15
  by_cases hlow : i < 11
  · have hin : i - 8 < 3 := by omega
    have hin' : i - 8 < 8 := by omega
    simp [hi, hlow, hin, hin']
  · have hbit : 3 + (i - 11) = i - 8 := by omega
    have hout : ¬ i - 8 < 3 := by omega
    have hiff : i - 11 < 5 ↔ i - 8 < 8 := by omega
    have hword : i - 8 < 32 ∧ i - 11 < 32 ∧ ¬ i < 8 := by omega
    simp [hi, hlow, hbit, hout, hiff, hword]

theorem append_append (n : DtNode) (key : String) (bytes bytes' : List Byte) :
    (n.append key bytes).append key bytes' = n.append key (bytes ++ bytes') := by
  simp [DtNode.append, Function.update_idem]

/-- A new node with the property. -/
theorem pciNode_zero (devfn : BitVec 32) :
    (DtNode.new (devfnName "virtio".toList devfn)).append "reg" (pciReg devfn)
      = pciNode devfn 0#32 := by
  refine congrArg (DtNode.mk _) (funext fun key => ?_)
  by_cases hkey : key = "reg"
  · subst hkey
    simp [DtNode.new]
  · simp [DtNode.new, hkey]

/-- The phandle is appended to it. -/
theorem pciNode_append {phandle : BitVec 32} (h : phandle ≠ 0#32) (devfn : BitVec 32) :
    (pciNode devfn 0#32).append "memory-region" (fdt32 phandle) = pciNode devfn phandle := by
  refine congrArg (DtNode.mk _) (funext fun key => ?_)
  by_cases hkey : key = "memory-region"
  · subst hkey
    simp [pciNode, h]
  · simp [pciNode, hkey]

theorem pciNode_label (devfn phandle : BitVec 32) :
    (pciNode devfn phandle).label = ⟨devfnName "virtio".toList devfn, 0#32⟩ := by
  simp [pciNode, DtNode.label, DtNode.phandle]

/-! ### Under `/pci` -/

theorem pathString_pci : "/pci".toList = pathString [pci] := by
  decide +kernel

theorem properPath_pci : ProperPath [pci] := by
  have hproper : pci ≠ [] ∧ '/' ∉ pci := by
    decide +kernel
  refine ⟨List.cons_ne_nil _ _, fun s hs => ?_⟩
  rw [List.mem_singleton.mp hs]
  exact hproper

/-- A name that stands for a node begins as the name of the node does. -/
theorem head_of_nodeNameEq {c : Char} {s name : CString} (h : nodeNameEq (c :: s) name = true) :
    name.head? = some c := by
  cases name with
  | nil => simp [nodeNameEq] at h
  | cons b name =>
      by_cases hb : b = c
      · rw [hb]
        rfl
      · rw [nodeNameEq_cons_ne hb] at h
        cases h

/-- `/pci` is not `/reserved-memory`. -/
theorem lookup_ne {l : Outline Label} {i j : ℕ} (hi : lookup l [pci] = some i)
    (hj : lookup l [reservedMemory] = some j) : i ≠ j := by
  rw [lookup, List.map_singleton, descend_singleton] at hi hj
  obtain ⟨-, d, x, hget, hfind⟩ := child?_some hi
  obtain ⟨-, d', x', hget', hfind'⟩ := child?_some hj
  have hname := List.find?_some hfind
  have hname' := List.find?_some hfind'
  have hp : x.name.head? = some 'p' := head_of_nodeNameEq hname
  have hr : x'.name.head? = some 'r' := head_of_nodeNameEq hname'
  intro heq
  rw [heq, hget'] at hget
  cases hget
  rw [hp] at hr
  cases hr

/-- **A node under `/pci` leaves `/reserved-memory`.** -/
theorem reservedNodes_insert_pci {l : Outline Label} {i : ℕ} (hi : lookup l [pci] = some i)
    (x : Label) : reservedNodes (insertChild l i x) = reservedNodes l := by
  have hget := List.getElem?_eq_getElem (lt_length_of_descend (List.cons_ne_nil _ _) hi)
  have hpos : 0 < i := by
    rw [lookup, List.map_singleton, descend_singleton] at hi
    exact (child?_some hi).1
  rw [reservedNodes, reservedNodes, lookup_reservedMemory, lookup_reservedMemory,
    child?_insertChild_of_lt hget x hpos, Option.map_map]
  cases hj : child? (fun n => nodeNameEq reservedMemory n.name) l 0 with
  | none => rfl
  | some j =>
      have hne := lookup_ne hi ((lookup_reservedMemory l).trans hj)
      rcases Nat.lt_or_gt_of_ne hne with hlt | hgt
      · show some (children (insertChild l i x) (shift i j)) = _
        rw [shift_of_lt hlt, children_insertChild_succ hget x hlt]
        rfl
      · show some (children (insertChild l i x) (shift i j)) = _
        rw [shift_of_le hgt.le, children_insertChild_of_lt hget x hgt]
        rfl

/-! ### What the calls do -/

section Specs

variable {T : Type} {lib : Libfdt T} {doc : T → Outline DtNode} {node : T → ℤ → Option ℕ}
  {t t' : T} {pfx : CString} {devfn : BitVec 32}

/-- The bytes that the calls append to `reg`. -/
theorem pciReg_eq (devfn : BitVec 32) :
    fdt32 ((devfn &&& 0xff#32) <<< 8) ++ List.replicate (4 * 4) 0#8 = pciReg devfn := by
  rw [phys_hi_eq, pciReg]

/-- After an error the loop does nothing. -/
theorem appendZeros_eq_zero {this : ℤ} {n : ℕ} {r : ℤ × T}
    (h : appendZeros lib this n r = (0, t')) : r.1 = 0 := by
  cases n with
  | zero => exact congrArg Prod.fst h
  | succ n =>
      by_contra hne
      rw [appendZeros, if_pos hne] at h
      exact hne (congrArg Prod.fst h)

theorem Libfdt.Correct.appendZeros_le (h : lib.Correct doc node) (this : ℤ) (n : ℕ) {r : ℤ × T}
    (hr : r.1 ≤ 0) : (appendZeros lib this n r).1 ≤ 0 := by
  induction n generalizing r with
  | zero => exact hr
  | succ n ih =>
      rw [appendZeros]
      split
      · exact hr
      · exact ih (h.append_u32 _ _ _ _).1

/-- The loop appends `n` zero cells. -/
theorem Libfdt.Correct.appendZeros_insertChild (h : lib.Correct doc node) {this : ℤ} {n i : ℕ}
    {l : Outline DtNode} {e : Item DtNode} {nd : DtNode} {bytes : List Byte} {r : ℤ × T}
    (hi : l[i]? = some e) (hdoc : doc r.2 = insertChild l i (nd.append "reg" bytes))
    (hnode : node r.2 this = some (i + 1)) (hcall : appendZeros lib this n r = (0, t')) :
    doc t' = insertChild l i (nd.append "reg" (bytes ++ List.replicate (4 * n) 0#8)) ∧
      node t' this = some (i + 1) := by
  induction n generalizing r bytes with
  | zero =>
      rw [appendZeros] at hcall
      rw [hcall] at hdoc hnode
      simpa using And.intro hdoc hnode
  | succ n ih =>
      have hzero := appendZeros_eq_zero hcall
      rw [appendZeros, if_neg (not_not.mpr hzero)] at hcall
      have hcell : lib.appendpropU32 r.2 this "reg" 0#32
          = (0, (lib.appendpropU32 r.2 this "reg" 0#32).2) :=
        Prod.ext (appendZeros_eq_zero hcall) rfl
      obtain ⟨hdoc', hnode'⟩ := (h.u32_appends hcell).insertChild hi hdoc hnode
      rw [append_append] at hdoc'
      have hbytes : List.replicate (4 * (n + 1)) 0#8
          = fdt32 0#32 ++ List.replicate (4 * n) 0#8 := by
        rw [Nat.mul_succ, Nat.add_comm, List.replicate_add]
        rfl
      rw [hbytes, ← List.append_assoc]
      exact ih hdoc' hnode' hcall

/-- **A generation** adds a node to `/pci` under a name that was free, with its `reg`. -/
theorem Libfdt.Correct.generatePciNode_cases (h : lib.Correct doc node) {r : ℤ}
    (hgen : fdtGeneratePciNode lib t pfx devfn = (r, t')) (hr : 0 ≤ r) :
    ∃ i, lookup (labels (doc t)) [pci] = some i ∧
      (∀ n ∈ children (doc t) i, n.name ≠ devfnName pfx devfn) ∧
      doc t' = insertChild (doc t) i
        ((DtNode.new (devfnName pfx devfn)).append "reg" (pciReg devfn)) ∧
      node t' r = some (i + 1) := by
  have hinternal : ¬ (0 : ℤ) ≤ -fdtErrInternal := by decide
  rw [fdtGeneratePciNode, pathString_pci] at hgen
  dsimp only at hgen
  split at hgen
  · cases hgen
    omega
  · rename_i hroot
    split at hgen
    · cases hgen
      exact absurd hr hinternal
    · rename_i hname
      have hfit : (devfnName pfx devfn).length < nameSize := by
        by_contra hlong
        rw [fdtFormatPciDevfnName, fdtFormat_of_le (Nat.le_of_not_lt hlong)] at hname
        exact hname (by decide)
      rw [fdtFormatPciDevfnName, fdtFormat_of_lt hfit] at hgen
      split at hgen
      · rename_i hthis
        rw [hgen] at hthis
        exact absurd hr (not_le.mpr hthis)
      · rename_i hthis
        obtain ⟨hzeros, hlast⟩ :=
          orError_eq (h.appendZeros_le _ _ (h.append_u32 _ _ _ _).1) hgen hr
        cases hlast
        obtain ⟨i, hnode, hunused, hdoc, hnode'⟩ := h.add_subnode _ _ _ (not_lt.mp hthis)
        have hfirst := appendZeros_eq_zero hzeros
        have hget := List.getElem?_eq_getElem (h.node_lt _ _ _ hnode)
        have hreg := (h.u32_appends (Prod.ext hfirst rfl)).insertChild hget hdoc hnode'
        have hall := h.appendZeros_insertChild hget hreg.1 hreg.2 hzeros
        rw [pciReg_eq] at hall
        refine ⟨i, ?_, hunused, hall⟩
        cases hl : lookup (labels (doc t)) [pci] with
        | none =>
            have hneg := h.missing t _ properPath_pci hl
            exact absurd hneg hroot
        | some j =>
            rw [← hnode]
            exact (h.found t _ j properPath_pci hl).2.symm

/-- Every name of a bounce buffer fits. -/
theorem fits_swiotlb (base : BitVec 64) : Fits "swiotlb".toList base := by
  have hpfx : '/' ∉ "swiotlb".toList ∧ "swiotlb".toList.length = 7 := by
    decide +kernel
  have hdigits : (Nat.toDigits 16 base.toNat).length ≤ 16 :=
    Nat.toDigits_length 16 base.toNat 16 (by decide) base.isLt
  refine ⟨hpfx.1, ?_⟩
  rw [memoryName, List.length_append, List.length_cons, hpfx.2]
  show 7 + (_ + 1) < 64
  omega

/-- The phandle of the bounce buffer at an address; 0 if there is none. -/
def swiotlbPhandle (l : Outline Label) (base : BitVec 64) : BitVec 32 :=
  regionPhandle l (memoryName "swiotlb".toList base)

theorem swiotlbPhandle_congr {l l' : Outline Label} (h : reservedNodes l = reservedNodes l')
    (base : BitVec 64) : swiotlbPhandle l base = swiotlbPhandle l' base := by
  rw [swiotlbPhandle, swiotlbPhandle, regionPhandle, regionPhandle, region, region, h]

/-- The labels after a new child. -/
theorem labels_insert {l : Outline DtNode} {i : ℕ} {x : DtNode} {d : Outline DtNode}
    (h : d = insertChild l i x) : labels d = insertChild (labels l) i x.label := by
  rw [h, labels, labels, insertChild_map]

/-- **One device** gets one node. -/
theorem Libfdt.Correct.device_cases (h : lib.Correct doc node) {t₁ : T} {r : ℤ} {base : BitVec 64}
    (hgen : fdtGeneratePciNode lib t "virtio".toList devfn = (r, t₁)) (hr : 0 ≤ r)
    (hassign : fdtAssignReservedMemory lib t₁ r "swiotlb".toList base = (0, t')) :
    ∃ i, lookup (labels (doc t)) [pci] = some i ∧
      (∀ n ∈ children (doc t) i, n.name ≠ devfnName "virtio".toList devfn) ∧
      doc t' = insertChild (doc t) i (pciNode devfn (swiotlbPhandle (labels (doc t)) base)) := by
  obtain ⟨i, hlookup, hunused, hdoc, hnode⟩ := h.generatePciNode_cases hgen hr
  rw [pciNode_zero] at hdoc
  refine ⟨i, hlookup, hunused, ?_⟩
  have hlt := lt_length_of_descend (List.cons_ne_nil _ _) hlookup
  have hget : (doc t)[i]? = some _ := List.getElem?_eq_getElem (by simpa [labels] using hlt)
  have hreserved : reservedNodes (labels (doc t₁)) = reservedNodes (labels (doc t)) := by
    rw [labels_insert hdoc]
    exact reservedNodes_insert_pci hlookup _
  rw [← swiotlbPhandle_congr hreserved]
  rcases h.assign_cases (fits_swiotlb base) hassign with ⟨x, hx, hne, happend⟩ | ⟨hzero, rfl⟩
  · have hphandle : swiotlbPhandle (labels (doc t₁)) base = x.phandle := by
      rw [swiotlbPhandle, regionPhandle, hx]
      rfl
    rw [(happend.insertChild hget hdoc hnode).1, pciNode_append hne, hphandle]
  · rw [swiotlbPhandle, hzero, hdoc]

end Specs

/-! ### All devices -/

section Config

variable {β T : Type} {lib : Libfdt T} {doc : T → Outline DtNode} {node : T → ℤ → Option ℕ}
  {t t' : T} {dataBase : β → BitVec 64} {pciDevs : List (Pcidev β)}

/-- The node that a device gets in a document with these labels. -/
def deviceNode (dataBase : β → BitVec 64) (l : Outline Label) (pcidev : Pcidev β) : DtNode :=
  pciNode pcidev.devfn (swiotlbPhandle l (dataBase pcidev.ioProxy))

/-- Its name. -/
def deviceName (pcidev : Pcidev β) : CString := devfnName "virtio".toList pcidev.devfn

/-- A success for a list of devices is a success for each. -/
theorem config_cons {pcidev : Pcidev β}
    (h : fdtGeneratePciConfig lib dataBase (pcidev :: pciDevs) t = (0, t')) :
    ∃ r t₁ t₂, fdtGeneratePciNode lib t "virtio".toList pcidev.devfn = (r, t₁) ∧ 0 ≤ r ∧
      fdtAssignReservedMemory lib t₁ r "swiotlb".toList (dataBase pcidev.ioProxy) = (0, t₂) ∧
      fdtGeneratePciConfig lib dataBase pciDevs t₂ = (0, t') := by
  rw [fdtGeneratePciConfig] at h
  dsimp only at h
  split at h
  · cases h
  · rename_i hthis
    split at h
    · cases h
    · rename_i herr
      exact ⟨_, _, _, rfl, (not_le.mp hthis).le, Prod.ext (not_not.mp herr) rfl, h⟩

/-- **The devices are the new children of `/pci`**, under different names. -/
theorem Libfdt.Correct.config_inserts (h : lib.Correct doc node) {i : ℕ}
    (hi : lookup (labels (doc t)) [pci] = some i)
    (hconf : fdtGeneratePciConfig lib dataBase pciDevs t = (0, t')) :
    doc t' = insertChildren (doc t) i (pciDevs.map (deviceNode dataBase (labels (doc t)))) ∧
      (pciDevs.map deviceName).Nodup ∧
      ∀ pcidev ∈ pciDevs, ∀ n ∈ children (doc t) i, n.name ≠ deviceName pcidev := by
  induction pciDevs generalizing t with
  | nil =>
      cases hconf
      exact ⟨rfl, List.nodup_nil, fun _ hmem => absurd hmem List.not_mem_nil⟩
  | cons pcidev pciDevs ih =>
      obtain ⟨r, t₁, t₂, hgen, hr, hassign, hrest⟩ := config_cons hconf
      obtain ⟨j, hj, hunused, hdoc⟩ := h.device_cases hgen hr hassign
      rw [hi] at hj
      cases hj
      have hlt := lt_length_of_descend (List.cons_ne_nil _ _) hi
      have hget : (doc t)[i]? = some _ := List.getElem?_eq_getElem (by simpa [labels] using hlt)
      have hlabels := labels_insert hdoc
      have hi₂ : lookup (labels (doc t₂)) [pci] = some i := by
        rw [hlabels]
        exact descend_insertChild hi _
      have hreserved : reservedNodes (labels (doc t₂)) = reservedNodes (labels (doc t)) := by
        rw [hlabels]
        exact reservedNodes_insert_pci hi _
      obtain ⟨hdoc', hnodup, hfresh⟩ := ih hi₂ hrest
      -- the first device is among the children that the others find
      rw [hdoc, children_insertChild hget] at hfresh
      refine ⟨?_, List.nodup_cons.mpr ⟨fun hmem => ?_, hnodup⟩, fun d hd n hn => ?_⟩
      · have hnodes : deviceNode dataBase (labels (doc t₂))
            = deviceNode dataBase (labels (doc t)) := by
          funext d
          rw [deviceNode, deviceNode, swiotlbPhandle_congr hreserved]
        rw [hdoc', hnodes, hdoc]
        rfl
      · obtain ⟨d, hd, hname⟩ := List.mem_map.mp hmem
        exact hfresh d hd _ List.mem_cons_self hname.symm
      · rcases List.mem_cons.mp hd with rfl | hd
        · exact hunused n hn
        · exact hfresh d hd n (List.mem_cons_of_mem _ hn)

/-- The new nodes have no phandle. -/
theorem phandles_insert_devices {l : Outline Label} {i : ℕ} (hi : i < l.length)
    (dataBase : β → BitVec 64) (l₀ : Outline Label) (pciDevs : List (Pcidev β)) :
    (phandles (insertChildren l i (pciDevs.map fun d => (deviceNode dataBase l₀ d).label))).Perm
      (phandles l) := by
  induction pciDevs generalizing l with
  | nil => exact .rfl
  | cons pcidev pciDevs ih =>
      have hget := List.getElem?_eq_getElem hi
      have hone := phandles_insertChild hget (deviceNode dataBase l₀ pcidev).label
      rw [deviceNode, pciNode_label, if_pos rfl] at hone
      have hlen : i < (insertChild l i (deviceNode dataBase l₀ pcidev).label).length :=
        (List.getElem?_eq_some_iff.mp (getElem?_insertChild_self hget _)).1
      have hrest := ih hlen
      rw [deviceNode, pciNode_label] at hrest
      rw [List.map_cons, deviceNode, pciNode_label]
      exact hrest.trans hone

theorem reservedNodes_insert_devices {l : Outline Label} {i : ℕ}
    (hi : lookup l [pci] = some i) (xs : List Label) :
    reservedNodes (insertChildren l i xs) = reservedNodes l := by
  induction xs generalizing l with
  | nil => rfl
  | cons x xs ih => exact (ih (descend_insertChild hi x)).trans (reservedNodes_insert_pci hi x)

/-- What the document `l'` says of the devices, when `l` is what it was before. -/
structure PciDescribed (dataBase : β → BitVec 64) (pciDevs : List (Pcidev β))
    (l l' : Outline DtNode) : Prop where
  /-- one node for each device, under a name that was free, and nothing else -/
  added : ∃ i, lookup (labels l) [pci] = some i ∧
    l' = insertChildren l i (pciDevs.map (deviceNode dataBase (labels l))) ∧
    ∀ pcidev ∈ pciDevs, ∀ n ∈ children l i, n.name ≠ deviceName pcidev
  /-- no two devices have one slot and function -/
  distinct : (pciDevs.map fun pcidev => pcidev.devfn &&& 0xff#32).Nodup
  /-- the path of a device leads to its node -/
  found : ∀ pcidev ∈ pciDevs, ∃ j depth, lookup (labels l') [pci, deviceName pcidev] = some j ∧
    l'[j]? = some ⟨depth, deviceNode dataBase (labels l') pcidev⟩
  /-- the bounce buffers, to which the new nodes point, are as before -/
  reserved : reservedNodes (labels l') = reservedNodes (labels l)
  phandles : (phandles (labels l')).Perm (phandles (labels l))

/-- A path below `/pci`. -/
theorem lookup_pci_child {l : Outline DtNode} {i : ℕ}
    (hi : lookup (labels l) [pci] = some i) (name : CString) :
    lookup (labels l) [pci, name] = child? (fun n => nodeNameEq name n.name) l i := by
  rw [lookup, List.map_singleton, descend_singleton] at hi
  have hchild := descend_singleton (labels l) (fun n => nodeNameEq name n.name) i
  rw [lookup, List.map_cons, List.map_singleton, descend, hi, Option.bind_some, hchild, labels,
    child?_map]
  rfl

/-- A child of `/pci` with the only such name is found. -/
theorem lookup_pci_of_mem {l : Outline DtNode} {i : ℕ} {name : CString} {x : DtNode}
    (hat : '@' ∈ name) (hi : lookup (labels l) [pci] = some i) (hx : x ∈ children l i)
    (hname : x.name = name) (honly : ∀ y ∈ children l i, y.name = name → y = x) :
    ∃ j depth, lookup (labels l) [pci, name] = some j ∧ l[j]? = some ⟨depth, x⟩ := by
  have hpath := lookup_pci_child hi name
  cases hj : child? (fun n => nodeNameEq name n.name) l i with
  | none =>
      have hnot := List.find?_eq_none.mp (child?_none hj) x hx
      exact absurd ((nodeNameEq_iff hat _).mpr hname) hnot
  | some j =>
      obtain ⟨-, depth, y, hget, hfind⟩ := child?_some hj
      have hname := List.find?_some hfind
      have hy := (nodeNameEq_iff hat y.name).mp hname
      rw [honly y (List.mem_of_find?_eq_some hfind) hy] at hget
      exact ⟨j, depth, hpath.trans hj, hget⟩

/-- What a success says of the devices, if there are any. -/
theorem Libfdt.Correct.config_cases (h : lib.Correct doc node)
    (hconf : fdtGeneratePciConfig lib dataBase pciDevs t = (0, t')) :
    (pciDevs = [] ∧ t' = t) ∨ ∃ i, lookup (labels (doc t)) [pci] = some i ∧
      doc t' = insertChildren (doc t) i (pciDevs.map (deviceNode dataBase (labels (doc t)))) ∧
      (pciDevs.map deviceName).Nodup ∧
      ∀ pcidev ∈ pciDevs, ∀ n ∈ children (doc t) i, n.name ≠ deviceName pcidev := by
  cases pciDevs with
  | nil =>
      cases hconf
      exact Or.inl ⟨rfl, rfl⟩
  | cons pcidev pciDevs =>
      obtain ⟨r, t₁, t₂, hgen, hr, -⟩ := config_cons hconf
      obtain ⟨i, hi, -⟩ := h.generatePciNode_cases hgen hr
      exact Or.inr ⟨i, hi, h.config_inserts hi hconf⟩

theorem labels_insert_devices {l l' : Outline DtNode} {i : ℕ} {l₀ : Outline Label}
    (h : l' = insertChildren l i (pciDevs.map (deviceNode dataBase l₀))) :
    labels l' = insertChildren (labels l) i
      (pciDevs.map fun d => (deviceNode dataBase l₀ d).label) := by
  rw [h, labels, insertChildren_map, List.map_map]
  rfl

/-- The bounce buffers are as before. -/
theorem Libfdt.Correct.config_reserved (h : lib.Correct doc node)
    (hconf : fdtGeneratePciConfig lib dataBase pciDevs t = (0, t')) :
    reservedNodes (labels (doc t')) = reservedNodes (labels (doc t)) := by
  rcases h.config_cases hconf with ⟨-, rfl⟩ | ⟨i, hi, hdoc, -, -⟩
  · rfl
  · rw [labels_insert_devices hdoc]
    exact reservedNodes_insert_devices hi _

theorem Libfdt.Correct.config_phandles (h : lib.Correct doc node)
    (hconf : fdtGeneratePciConfig lib dataBase pciDevs t = (0, t')) :
    (phandles (labels (doc t'))).Perm (phandles (labels (doc t))) := by
  rcases h.config_cases hconf with ⟨-, rfl⟩ | ⟨i, hi, hdoc, -, -⟩
  · exact .rfl
  · rw [labels_insert_devices hdoc]
    exact phandles_insert_devices (lt_length_of_descend (List.cons_ne_nil _ _) hi) _ _ _

/-- No two devices have one slot and function. -/
theorem Libfdt.Correct.config_distinct (h : lib.Correct doc node)
    (hconf : fdtGeneratePciConfig lib dataBase pciDevs t = (0, t')) :
    (pciDevs.map fun pcidev => pcidev.devfn &&& 0xff#32).Nodup := by
  rcases h.config_cases hconf with ⟨rfl, -⟩ | ⟨i, -, -, hnodup, -⟩
  · exact List.nodup_nil
  · rw [List.nodup_map_iff_inj_on hnodup.of_map]
    intro d hd d' hd' hlow
    exact List.inj_on_of_nodup_map hnodup hd hd' (devfnName_congr hlow)

/-- The path of a device leads to its node. -/
theorem Libfdt.Correct.config_found (h : lib.Correct doc node)
    (hconf : fdtGeneratePciConfig lib dataBase pciDevs t = (0, t')) {pcidev : Pcidev β}
    (hd : pcidev ∈ pciDevs) :
    ∃ j depth, lookup (labels (doc t')) [pci, deviceName pcidev] = some j ∧
      (doc t')[j]? = some ⟨depth, deviceNode dataBase (labels (doc t')) pcidev⟩ := by
  rcases h.config_cases hconf with ⟨rfl, -⟩ | ⟨i, hi, hdoc, hnodup, hfresh⟩
  · exact absurd hd List.not_mem_nil
  have hlt := lt_length_of_descend (List.cons_ne_nil _ _) hi
  have hget : (doc t)[i]? = some _ := List.getElem?_eq_getElem (by simpa [labels] using hlt)
  have hnodes : deviceNode dataBase (labels (doc t')) = deviceNode dataBase (labels (doc t)) := by
    funext d
    rw [deviceNode, deviceNode, swiotlbPhandle_congr (h.config_reserved hconf)]
  have hi' : lookup (labels (doc t')) [pci] = some i := by
    rw [labels_insert_devices hdoc]
    exact descend_insertChildren hi _
  have hchildren := children_insertChildren hget
    (pciDevs.map (deviceNode dataBase (labels (doc t))))
  rw [← hdoc] at hchildren
  rw [hnodes]
  refine lookup_pci_of_mem (at_mem_devfnName _ _) hi' ?_ rfl fun y hy hname => ?_
  · rw [hchildren]
    exact List.mem_append_left _ (List.mem_reverse.mpr (List.mem_map_of_mem hd))
  · rw [hchildren] at hy
    rcases List.mem_append.mp hy with hnew | hold
    · obtain ⟨d, hd', rfl⟩ := List.mem_map.mp (List.mem_reverse.mp hnew)
      rw [List.inj_on_of_nodup_map hnodup hd' hd hname]
    · exact absurd hname (hfresh pcidev hd y hold)

/-- **The tree describes the PCI devices.**  When `fdt_generate_pci_config` returns 0, the path of
every device leads to a node with its slot and function and the phandle of its bounce buffer. -/
theorem pci_config_describes (h : lib.Correct doc node) (hdevs : pciDevs ≠ [])
    (hconf : fdtGeneratePciConfig lib dataBase pciDevs t = (0, t')) :
    PciDescribed dataBase pciDevs (doc t) (doc t') := by
  rcases h.config_cases hconf with ⟨hnone, -⟩ | ⟨i, hi, hdoc, -, hfresh⟩
  · exact absurd hnone hdevs
  · exact
      { added := ⟨i, hi, hdoc, hfresh⟩
        distinct := h.config_distinct hconf
        found := fun _ hd => h.config_found hconf hd
        reserved := h.config_reserved hconf
        phandles := h.config_phandles hconf }

end Config

/-! ### Two devices -/

/-- A result that is 0, with the tree. -/
theorem eq_mk_snd {T : Type} {r : ℤ × T} (h : r.1 = 0) : r = (0, r.2) := Prod.ext h rfl

/-- A device in a slot; its backend is where its bounce buffer is. -/
def deviceInSlot (slot : RpcQueue.Word) (base : BitVec 64) : Pcidev (BitVec 64) :=
  ⟨pciDevfn slot 0#64, 0#32, base⟩

/-- A device whose bounce buffer `preparedTree` has, and one without. -/
def twoDevices : List (Pcidev (BitVec 64)) :=
  [deviceInSlot 2#64 0x1000#64, deviceInSlot 3#64 0x2000#64]

/-- `pci_config_describes` for two devices. -/
theorem pci_config_describes_two :
    PciDescribed id twoDevices preparedTree
      (fdtGeneratePciConfig documentLibfdt id twoDevices preparedTree).2 := by
  have hret : (fdtGeneratePciConfig documentLibfdt id twoDevices preparedTree).1 = 0 := by
    decide +kernel
  have hdescribed := pci_config_describes documentLibfdt_correct (List.cons_ne_nil _ _)
    (eq_mk_snd hret)
  exact hdescribed

end TiiSel4Vm.Fdt
