import TiiSel4Vm.Fdt.Generate
import TiiSel4Vm.Fdt.PciNodes

/-!
# The device tree of a guest

`guest_configure` generates the bounce buffers of the backends and then the nodes of their PCI
devices, which look for their bounce buffers by name.

* `compatibles_first` — the call for the bounce buffers generates the first one that is not the
  guest's RAM, and no other;
* `guest_configure_describes` — what the tree says in the end, and which devices have a bounce
  buffer in it.
-/

namespace TiiSel4Vm.Fdt

open TiiSel4Vm.Outlines TiiSel4Vm.Devices

/-! ### After a generation -/

section Regions

variable {l l' : Outline Label} {name : CString} {p : BitVec 32} {nodes : List Label}

/-- A name other than the new one is found as before. -/
theorem AddsRegion.regionPhandle_of_ne {n : CString} (h : AddsRegion l l' name p nodes)
    (hne : name ≠ n) :
    regionPhandle l' n = regionPhandle l n := by
  rw [regionPhandle, regionPhandle, region, region, h.after, h.before, Option.bind_some,
    Option.bind_some, List.find?_cons_of_neg (by simpa using hne)]

/-- A generation and devices that leave the reserved memory as it is. -/
theorem AddsRegion.trans_eq {l₁ : Outline Label} (h : AddsRegion l l₁ name p nodes)
    (hreserved : reservedNodes l' = reservedNodes l₁)
    (hperm : (phandles l').Perm (phandles l₁)) : AddsRegion l l' name p nodes where
  before := h.before
  after := hreserved.trans h.after
  unused := h.unused
  ne_zero := h.ne_zero
  fresh := h.fresh
  phandles_perm := hperm.trans h.phandles_perm

/-- The bounce buffers after a generation. -/
theorem AddsRegion.swiotlbPhandle_iff {port : FdtDataport}
    (h : AddsRegion l l' (memoryName port.name.toList port.gpa) p nodes)
    (base : BitVec 64) :
    swiotlbPhandle l' base ≠ 0#32 ↔
      swiotlbPhandle l base ≠ 0#32 ∨ (port.name = "swiotlb" ∧ port.gpa = base) := by
  by_cases hname : port.name = "swiotlb" ∧ port.gpa = base
  · obtain ⟨hname, rfl⟩ := hname
    rw [hname] at h
    have hself : swiotlbPhandle l' port.gpa = p := by
      rw [swiotlbPhandle, regionPhandle, h.region_self]
      rfl
    rw [hself]
    exact ⟨fun _ => Or.inr ⟨hname, rfl⟩, fun _ => h.ne_zero⟩
  · have hne : memoryName port.name.toList port.gpa ≠ memoryName "swiotlb".toList base := by
      intro heq
      obtain ⟨hpfx, hbase⟩ := memoryName_inj heq
      exact hname ⟨String.toList_inj.mp hpfx, hbase⟩
    rw [swiotlbPhandle, h.regionPhandle_of_ne hne, ← swiotlbPhandle]
    exact ⟨Or.inl, fun hor => hor.resolve_right hname⟩

end Regions

/-! ### The bounce buffers -/

section Guest

variable {ν β T : Type} [DecidableEq ν] {lib : Libfdt T} {doc : T → Outline DtNode}
  {node : T → ℤ → Option ℕ} {ports : ν → FdtDataport} {guestRamBase guestRamSize : BitVec 64}
  {table : List (Option ν)} {t t' : T} {w' : Tree ν T}

/-- `fdt_generate_reserved_node` for a node of the table.  It is called for nodes that have a
compatible string. -/
def reservedGenerator (lib : Libfdt T) (name : String) (compatible : Option String)
    (base size : BitVec 64) (fdt : T) : ℤ × T :=
  fdtGenerateReservedNode lib fdt name.toList (compatible.getD "") base size

/-- The registered nodes of dataports on the device tree of a guest. -/
def dataportTree (lib : Libfdt T) (guestRamBase guestRamSize : BitVec 64) (ports : ν → FdtDataport)
    (fdt : T) (calls : List (ν × ℤ)) : Tree ν T where
  nodes n := (ports n).node (reservedGenerator lib) guestRamBase guestRamSize
  fdt := some fdt
  calls := calls

/-- A function of the device tree; it is not called with NULL. -/
def onTree (f : T → ℤ × T) : Option T → ℤ × Option T
  | none => (-1, none)
  | some fdt => ((f fdt).1, some (f fdt).2)

/-- A bounce buffer that is not the guest's RAM. -/
def IsPool (guestRamBase guestRamSize : BitVec 64) (port : FdtDataport) : Prop :=
  port.compatible = some "restricted-dma-pool" ∧
    ¬ (port.gpa = guestRamBase ∧ port.size = guestRamSize)

instance (port : FdtDataport) : Decidable (IsPool guestRamBase guestRamSize port) :=
  inferInstanceAs (Decidable (_ ∧ _))

/-- The first of them in the table. -/
def firstPool (guestRamBase guestRamSize : BitVec 64) (ports : ν → FdtDataport)
    (table : List (Option ν)) : Option FdtDataport :=
  ((registered table).map ports).find? (IsPool guestRamBase guestRamSize)

omit [DecidableEq ν] in
theorem firstPool_cons_of_pos {n : ν} (h : IsPool guestRamBase guestRamSize (ports n)) :
    firstPool guestRamBase guestRamSize ports (some n :: table) = some (ports n) :=
  List.find?_cons_of_pos (decide_eq_true h)

omit [DecidableEq ν] in
theorem firstPool_cons_of_neg {n : ν} (h : ¬ IsPool guestRamBase guestRamSize (ports n)) :
    firstPool guestRamBase guestRamSize ports (some n :: table)
      = firstPool guestRamBase guestRamSize ports table :=
  List.find?_cons_of_neg (by simpa using h)

/-- The tree after the generation of a bounce buffer, if there is one. -/
def Generated (lib : Libfdt T) (port : Option FdtDataport) (t t₁ : T) : Prop :=
  match port with
  | none => t₁ = t
  | some port => ∃ r, 0 < r ∧
      fdtGenerateReservedNode lib t port.name.toList "restricted-dma-pool" port.gpa port.size
        = (r, t₁)

/-- The guest's RAM is left alone. -/
theorem generate_guestRam {calls : List (ν × ℤ)} {n : ν}
    (h : (ports n).gpa = guestRamBase ∧ (ports n).size = guestRamSize) :
    fdtNodeGenerate (dataportTree lib guestRamBase guestRamSize ports t calls) n
      = (0, dataportTree lib guestRamBase guestRamSize ports t (calls ++ [(n, 0)])) := by
  have hcall : fdtNodeGenerateSwiotlb (reservedGenerator lib) guestRamBase guestRamSize (ports n) t
      = (0, t) := if_pos h
  simp only [fdtNodeGenerate, dataportTree, FdtDataport.node, hcall]
  rfl

/-- Another dataport is generated. -/
theorem generate_dataport {calls : List (ν × ℤ)} {n : ν}
    (hram : ¬ ((ports n).gpa = guestRamBase ∧ (ports n).size = guestRamSize))
    (h : ¬ (fdtNodeGenerate (dataportTree lib guestRamBase guestRamSize ports t calls) n).1 < 0) :
    ∃ r t₁, 0 < r ∧
      reservedGenerator lib (ports n).name (ports n).compatible (ports n).gpa (ports n).size t
        = (r, t₁) ∧
      (fdtNodeGenerate (dataportTree lib guestRamBase guestRamSize ports t calls) n).1 = 1 ∧
      (fdtNodeGenerate (dataportTree lib guestRamBase guestRamSize ports t calls) n).2.fdt
        = some t₁ := by
  have hanswer : answer (dataportTree lib guestRamBase guestRamSize ports t calls).nodes n (some t)
      = ((fdtNodeGenerateSwiotlb (reservedGenerator lib) guestRamBase guestRamSize (ports n) t).1,
        some (fdtNodeGenerateSwiotlb (reservedGenerator lib) guestRamBase guestRamSize (ports n)
          t).2) := rfl
  have hnode := generate_pending rfl h
  rw [show (dataportTree lib guestRamBase guestRamSize ports t calls).fdt = some t from rfl,
    hanswer, fdtNodeGenerateSwiotlb, if_neg hram, fdtNodeGenerateDataport] at hnode
  rw [hnode] at h ⊢
  dsimp only at h ⊢
  split at h
  · exact absurd (by decide : (-1 : ℤ) < 0) h
  · rename_i hpos
    rw [if_neg hpos]
    exact ⟨_, _, not_le.mp hpos, rfl, rfl, rfl⟩

/-- **The first bounce buffer is generated, and no other.** -/
theorem compatibles_first {calls : List (ν × ℤ)}
    (h : generateLoop (some (fdtNodeFilterCompatible (some "restricted-dma-pool"))) table 0
      (dataportTree lib guestRamBase guestRamSize ports t calls) = (0, w')) :
    ∃ t₁, w'.fdt = some t₁ ∧
      Generated lib (firstPool guestRamBase guestRamSize ports table) t t₁ := by
  induction table generalizing calls with
  | nil =>
      cases h
      exact ⟨t, rfl, rfl⟩
  | cons ptr rest ih =>
      rw [generateLoop.eq_def] at h
      dsimp only at h
      rw [if_neg (by decide)] at h
      cases ptr with
      | none => exact ih h
      | some n =>
          simp only [Option.isSome_some, true_and] at h
          rcases filter_verdict (some "restricted-dma-pool") ((dataportTree lib guestRamBase
            guestRamSize ports t calls).nodes n) with hv | ⟨hv, hsel⟩ | ⟨hv, hsel⟩
          · simp [hv] at h
          · rw [hv, if_neg (by decide), if_pos rfl] at h
            rw [firstPool_cons_of_neg]
            · exact ih h
            · intro hpool
              simp [Selected, dataportTree, FdtDataport.node, hpool.1] at hsel
          · rw [hv, if_neg (by decide), if_neg (by decide)] at h
            have hcompatible : (ports n).compatible = some "restricted-dma-pool" := by
              simpa [Selected, dataportTree, FdtDataport.node] using hsel
            by_cases hram : (ports n).gpa = guestRamBase ∧ (ports n).size = guestRamSize
            · rw [generate_guestRam hram, if_neg (lt_irrefl _)] at h
              rw [firstPool_cons_of_neg fun hpool => hpool.2 hram]
              exact ih h
            · by_cases hrc : (fdtNodeGenerate (dataportTree lib guestRamBase guestRamSize ports t
                  calls) n).1 < 0
              · rw [if_pos hrc] at h
                cases h
              · rw [if_neg hrc] at h
                obtain ⟨r, t₁, hr, hgen, hone, hfdt⟩ := generate_dataport hram hrc
                rw [hone, generateLoop_of_ne_zero (by decide)] at h
                cases h
                rw [firstPool_cons_of_pos ⟨hcompatible, hram⟩]
                rw [hcompatible] at hgen
                exact ⟨t₁, hfdt, r, hr, hgen⟩

/-! ### The guest -/

/-- The calls of `guest_configure` when it returns 0. -/
theorem guestConfigure_calls {vpciInstall : ℤ} {pciConfig : Option T → ℤ × Option T}
    {w : Tree ν T} (h : guestConfigure vpciInstall true pciConfig table w = (0, w')) :
    ∃ w₁, fdtNodeGenerateCompatibles table w (some "restricted-dma-pool") = (0, w₁) ∧
      pciConfig w₁.fdt = (0, w'.fdt) := by
  unfold guestConfigure at h
  simp only [all_idle, Bool.not_true, Bool.false_eq_true, if_false, ne_eq, not_true_eq_false] at h
  split at h
  · cases h
  · split at h
    · cases h
    · rename_i hrc
      split at h
      · cases h
      · rename_i hpci
        cases h
        exact ⟨_, Prod.ext (not_not.mp hrc) rfl, Prod.ext (not_not.mp hpci) rfl⟩

/-- What the document `l'` of a guest says, when `l` is what it was before and `pool` is the first
bounce buffer. -/
structure GuestDescribed (dataBase : β → BitVec 64) (pciDevs : List (Pcidev β))
    (pool : Option FdtDataport) (l l' : Outline DtNode) : Prop where
  /-- the path of a device leads to its node -/
  found : ∀ pcidev ∈ pciDevs, ∃ j depth, lookup (labels l') [pci, deviceName pcidev] = some j ∧
    l'[j]? = some ⟨depth, deviceNode dataBase (labels l') pcidev⟩
  distinct : (pciDevs.map fun pcidev => pcidev.devfn &&& 0xff#32).Nodup
  /-- the first bounce buffer is new under `/reserved-memory`, with a phandle of its own -/
  generated : ∀ port, pool = some port → ∃ p nodes,
    AddsRegion (labels l) (labels l') (memoryName port.name.toList port.gpa) p nodes
  /-- where there is none, `/reserved-memory` and the phandles are as before -/
  kept : pool = none → reservedNodes (labels l') = reservedNodes (labels l) ∧
    (phandles (labels l')).Perm (phandles (labels l))
  /-- a device has a bounce buffer if it is this one or was there before -/
  buffered : ∀ pcidev ∈ pciDevs,
    swiotlbPhandle (labels l') (dataBase pcidev.ioProxy) ≠ 0#32 ↔
      swiotlbPhandle (labels l) (dataBase pcidev.ioProxy) ≠ 0#32 ∨
        ∃ port, pool = some port ∧ port.name = "swiotlb" ∧ port.gpa = dataBase pcidev.ioProxy

/-- **The device tree of a guest.**  When `guest_configure` returns 0, the path of every PCI device
leads to its node.  One bounce buffer is new, the first in the table that is not the guest's RAM; a
device of another backend has one only if the tree came with it. -/
theorem guest_configure_describes (h : lib.Correct doc node) {dataBase : β → BitVec 64}
    {pciDevs : List (Pcidev β)} {vpciInstall : ℤ}
    (hconf : guestConfigure vpciInstall true (onTree (fdtGeneratePciConfig lib dataBase pciDevs))
      table (dataportTree lib guestRamBase guestRamSize ports t []) = (0, w')) :
    ∃ t', w'.fdt = some t' ∧ GuestDescribed dataBase pciDevs
      (firstPool guestRamBase guestRamSize ports table) (doc t) (doc t') := by
  obtain ⟨w₁, hcompatibles, hpci⟩ := guestConfigure_calls hconf
  obtain ⟨t₁, hfdt, hgenerated⟩ := compatibles_first hcompatibles
  rw [hfdt] at hpci
  obtain ⟨hret, htree⟩ := Prod.ext_iff.mp hpci
  have hconfig : fdtGeneratePciConfig lib dataBase pciDevs t₁
      = (0, (fdtGeneratePciConfig lib dataBase pciDevs t₁).2) := Prod.ext hret rfl
  have hreserved := h.config_reserved hconfig
  have hphandles := h.config_phandles hconfig
  refine ⟨_, htree.symm, fun _ hd => h.config_found hconfig hd, h.config_distinct hconfig, ?_, ?_,
    fun pcidev _ => ?_⟩
  · intro port hport
    rw [hport] at hgenerated
    obtain ⟨r, hr, hgen⟩ := hgenerated
    obtain ⟨-, p, nodes, hadds⟩ := h.generate_adds hgen hr.le
    exact ⟨p, nodes, hadds.trans_eq hreserved hphandles⟩
  · intro hpool
    rw [hpool] at hgenerated
    cases hgenerated
    exact ⟨hreserved, hphandles⟩
  · rw [swiotlbPhandle_congr hreserved]
    cases hpool : firstPool guestRamBase guestRamSize ports table with
    | none =>
        rw [hpool] at hgenerated
        cases hgenerated
        simp
    | some port =>
        rw [hpool] at hgenerated
        obtain ⟨r, hr, hgen⟩ := hgenerated
        obtain ⟨-, p, nodes, hadds⟩ := h.generate_adds hgen hr.le
        rw [hadds.swiotlbPhandle_iff]
        simp

end Guest

/-! ### Two backends -/

/-- The bounce buffers of the backends of `twoDevices`. -/
def twoPorts (second : Bool) : FdtDataport :=
  bounceBuffer (if second then 0x2000#64 else 0x1000#64)

/-- `guest_configure` on the tree of a board. -/
def twoBackends : ℤ × Tree Bool (Outline DtNode) :=
  guestConfigure 0 true (onTree (fdtGeneratePciConfig documentLibfdt id twoDevices))
    [none, some false, some true]
    (dataportTree documentLibfdt 0x4000#64 0x1000#64 twoPorts boardTree [])

/-- `guest_configure_describes` for two backends. -/
theorem guest_configure_describes_two : ∃ t', twoBackends.2.fdt = some t' ∧
    GuestDescribed id twoDevices
      (firstPool 0x4000#64 0x1000#64 twoPorts [none, some false, some true]) boardTree t' := by
  have hret : twoBackends.1 = 0 := by
    decide +kernel
  have hdescribed := guest_configure_describes documentLibfdt_correct (eq_mk_snd hret)
  exact hdescribed

end TiiSel4Vm.Fdt
