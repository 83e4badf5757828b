import Mathlib.Data.List.Find
import TiiSel4Vm.Vmm.SharedIrqLine

/-!
# PCI interrupts

The devices of all backends share four INTx lines.  A device's guest slot says which line it is on
and which source of it; its backend knows it by the backend's slot.

* `PciInv` — a line's sources are the slots of the devices on it whose level is high;
* `pci_levels` — over any run of PCI events each line is at the OR of the devices whose
  configuration space names it, and an event changes what no other device contributes.
-/

namespace TiiSel4Vm.Devices

open TiiSel4Vm.Transition TiiSel4Vm.RpcQueue

/-! ### Slots -/

theorem pciSlot_pciDevfn (slot func : Word) :
    pciSlot (pciDevfn slot func) = (slot &&& 0x1f#64).setWidth 32 := by
  have h5 : (0x1f#64 : Word) = mask 5 := by decide
  have h5' : (0x1f#32 : BitVec 32) = (mask 5).setWidth 32 := by decide
  have h3 : (0x07#64 : Word) = mask 3 := by decide
  apply BitVec.eq_of_getLsbD_eq
  intro i hi
  rw [pciSlot, pciDevfn, h5', h5, h3]
  simp only [BitVec.getLsbD_and, BitVec.getLsbD_ushiftRight, BitVec.getLsbD_setWidth,
    BitVec.getLsbD_or, BitVec.getLsbD_shiftLeft, getLsbD_mask (by decide : 5 < 64),
    getLsbD_mask (by decide : 3 < 64)]
  by_cases h : i < 5
  · have hout : ¬ 3 + i < 3 := by omega
    have hin : 3 + i < 32 := by omega
    have hin' : 3 + i < 64 := by omega
    simp [h, hi, hout, hin, hin']
  · simp [h]

/-- A backend's number for a device is its slot. -/
theorem pciDevfn_eq_iff {slot slot' : Word} :
    pciDevfn slot 0#64 = pciDevfn slot' 0#64 ↔
      pciSlot (pciDevfn slot 0#64) = pciSlot (pciDevfn slot' 0#64) := by
  constructor
  · intro h
    rw [h]
  · intro h
    rw [pciSlot_pciDevfn, pciSlot_pciDevfn] at h
    have hle : ∀ w : Word, (w &&& 0x1f#64).toNat < 2 ^ 32 := by
      intro w
      rw [BitVec.toNat_and]
      exact lt_of_le_of_lt Nat.and_le_right (by decide)
    have hslot : slot &&& 0x1f#64 = slot' &&& 0x1f#64 := by
      apply BitVec.eq_of_toNat_eq
      have hnat := congrArg BitVec.toNat h
      rw [BitVec.toNat_setWidth, BitVec.toNat_setWidth, Nat.mod_eq_of_lt (hle slot),
        Nat.mod_eq_of_lt (hle slot')] at hnat
      exact hnat
    rw [pciDevfn, pciDevfn, hslot]

/-- The slot that `vmm_pci_add_entry` gives to a device. -/
theorem pciSlot_devfn_toNat {dev func : BitVec 8} (h : dev.toNat < 32) :
    (pciSlot (pciDevfn (dev.setWidth 64) (func.setWidth 64))).toNat = dev.toNat := by
  rw [pciSlot_pciDevfn, BitVec.toNat_setWidth, BitVec.toNat_and, BitVec.toNat_setWidth]
  have hmask : (0x1f#64 : Word).toNat = 2 ^ 5 - 1 := rfl
  rw [hmask, Nat.and_two_pow_sub_one_eq_mod]
  omega

/-! ### Configuration space -/

/-- `PCI_INTERRUPT_LINE`. -/
def pciInterruptLine : BitVec 32 := 0x3c#32

/-- `PCI_INTERRUPT_PIN`. -/
def pciInterruptPin : BitVec 32 := 0x3d#32

section Pci

variable {β : Type}

/-- `pci_cfg_read8`; `base` is `INTERRUPT_PCI_INTX_BASE`, and `read` is `pci_cfg_read`. -/
def pciCfgRead8 (base : BitVec 32) (read : Pcidev β → BitVec 32 → ℕ → Word) (pcidev : Pcidev β)
    (offset : BitVec 32) : BitVec 8 :=
  if offset = pciInterruptLine then (base + BitVec.ofNat 32 (pciMapIrq pcidev)).setWidth 8
  else if offset = pciInterruptPin then BitVec.ofNat 8 (pciMapIrq pcidev + 1)
  else (read pcidev offset 1).setWidth 8

/-- The byte of a device's configuration space that names an interrupt. -/
def Names (base : BitVec 32) (read : Pcidev β → BitVec 32 → ℕ → Word) (pcidev : Pcidev β)
    (irq : BitVec 32) : Prop :=
  pciCfgRead8 base read pcidev pciInterruptLine = irq.setWidth 8

theorem names_iff {base : BitVec 32} {read : Pcidev β → BitVec 32 → ℕ → Word} {pcidev : Pcidev β}
    {i : Fin pciNumPins} :
    Names base read pcidev (base + BitVec.ofNat 32 i) ↔ pciMapIrq pcidev = i := by
  unfold Names pciCfgRead8
  rw [if_pos rfl]
  constructor
  · intro h
    have hnat := congrArg BitVec.toNat h
    simp only [BitVec.toNat_setWidth, BitVec.toNat_add, BitVec.toNat_ofNat] at hnat
    have hi := i.isLt
    have hp := (pciMapIrq pcidev).isLt
    apply Fin.ext
    have hfour : pciNumPins = 4 := rfl
    omega
  · intro h
    rw [h]

/-! ### Runs of PCI events -/

/-- An event. -/
structure PciEvent (β : Type) where
  x : Answers
  ioProxy : β
  op : Word
  msg : RpcMsg

/-- The level that an operation leaves its device at. -/
def commandedLevel (irqOp : BitVec 32) : Option Bool :=
  if irqOp = rpcIrqSet then some true
  else if irqOp = rpcIrqClr then some false
  else if irqOp = rpcIrqPulse then some false
  else none

variable [DecidableEq β]

/-- The first registered device with the backend and backend slot. -/
def addressed (d : DeviceTables β) (ioProxy : β) (backendSlot : BitVec 32) : Option ℕ :=
  d.pciDevs.findIdx? fun p => p.ioProxy = ioProxy ∧ pciSlot p.backendDevfn = backendSlot

/-- The device that an event addresses, if it is an interrupt event of a PCI device. -/
def PciEvent.device (e : PciEvent β) (d : DeviceTables β) : Option ℕ :=
  if e.op = qemuOpSetIrq ∧ irqIsPci ((e.msg mr1).setWidth 32) then
    addressed d e.ioProxy ((e.msg mr1).setWidth 32)
  else none

/-- The tables, and the level last commanded for each registered device. -/
structure PciRun (β : Type) where
  tables : DeviceTables β
  level : ℕ → Bool

/-- The levels after an event. -/
def PciEvent.levels (e : PciEvent β) (s : PciRun β) : ℕ → Bool :=
  match e.device s.tables, commandedLevel ((e.msg mr2).setWidth 32) with
  | some k, some b => Function.update s.level k b
  | _, _ => s.level

/-- `vm_set_irq_level` succeeds, and `vmm_pci_add_entry` gives a device a slot of its own. -/
def PciEvent.Orderly (e : PciEvent β) (d : DeviceTables β) : Prop :=
  (∀ b, e.x.vmSetIrqLevel b = 0) ∧
    (e.op = qemuOpRegisterPciDev → e.x.vmmPciAddEntry = 0 →
      e.x.pciDev.toNat < pciNumSlots ∧
        ∀ p ∈ d.pciDevs, (pciSlot p.devfn).toNat ≠ e.x.pciDev.toNat)

/-- The VM after `irq_init`, and any orderly events. -/
def pciLts (base : BitVec 32) : Lts (PciRun β) (PciEvent β) where
  init s := s.tables.pciDevs = [] ∧ (∀ i, s.tables.pciIntx i = ⟨base + BitVec.ofNat 32 i, 0#64⟩) ∧
    (∀ i : Fin pciNumPins, s.tables.vm.level (base + BitVec.ofNat 32 i) = false) ∧
    s.level = fun _ => false
  step s e t := e.Orderly s.tables ∧
    t = ⟨(handlePci e.x e.ioProxy e.op e.msg s.tables).2, e.levels s⟩

/-- What a device adds to its line. -/
def contribution (d : DeviceTables β) (p : Pcidev β) : Bool :=
  (d.pciIntx (pciMapIrq p)).sources.getLsbD (pciSlot p.devfn).toNat

/-- A line's sources are the slots of the devices on it whose level is high. -/
structure PciInv (base : BitVec 32) (d : DeviceTables β) (level : ℕ → Bool) : Prop where
  base : ∀ i, (d.pciIntx i).irq = base + BitVec.ofNat 32 i
  driven : ∀ i, Driven d.vm (d.pciIntx i)
  backend : ∀ p ∈ d.pciDevs, ∃ slot, p.backendDevfn = pciDevfn slot 0#64
  slots : ∀ (k l : ℕ) (p q : Pcidev β), d.pciDevs[k]? = some p → d.pciDevs[l]? = some q →
    pciSlot p.devfn = pciSlot q.devfn → k = l
  sources : ∀ i, ∀ j < 32, (d.pciIntx i).sources.getLsbD j = true ↔
    ∃ (k : ℕ) (p : Pcidev β), d.pciDevs[k]? = some p ∧ pciMapIrq p = i ∧
      (pciSlot p.devfn).toNat = j ∧ level k = true
  high : ∀ i j, 31 ≤ j → j < 64 →
    (d.pciIntx i).sources.getLsbD j = (d.pciIntx i).sources.getLsbD 31
  fresh : ∀ k, d.pciDevs.length ≤ k → level k = false

omit [DecidableEq β] in
theorem PciInv.intx {base : BitVec 32} {d : DeviceTables β} {level : ℕ → Bool}
    (hi : PciInv base d level) : IntxInv d where
  driven := hi.driven
  irqs := by
    intro i j hij
    rw [hi.base i, hi.base j]
    intro h
    apply hij
    have hnat := congrArg BitVec.toNat h
    simp only [BitVec.toNat_add, BitVec.toNat_ofNat] at hnat
    have hilt := i.isLt
    have hjlt := j.isLt
    have hfour : pciNumPins = 4 := rfl
    apply Fin.ext
    omega

omit [DecidableEq β] in
/-- A device's level decides its own source only. -/
theorem active_update_iff {d : DeviceTables β} {level : ℕ → Bool} {k : ℕ} {p : Pcidev β}
    (hk : d.pciDevs[k]? = some p) (b : Bool) {i : Fin pciNumPins} {j : ℕ}
    (hno : ¬ (pciMapIrq p = i ∧ (pciSlot p.devfn).toNat = j)) :
    (∃ (l : ℕ) (q : Pcidev β), d.pciDevs[l]? = some q ∧ pciMapIrq q = i ∧
        (pciSlot q.devfn).toNat = j ∧ level l = true) ↔
      ∃ (l : ℕ) (q : Pcidev β), d.pciDevs[l]? = some q ∧ pciMapIrq q = i ∧
        (pciSlot q.devfn).toNat = j ∧ Function.update level k b l = true := by
  have hne : ∀ (l : ℕ) (q : Pcidev β), d.pciDevs[l]? = some q → pciMapIrq q = i →
      (pciSlot q.devfn).toNat = j → l ≠ k := by
    intro l q hl hq hs hlk
    rw [hlk, hk] at hl
    cases hl
    exact hno ⟨hq, hs⟩
  constructor
  · rintro ⟨l, q, hl, hq, hs, hlevel⟩
    exact ⟨l, q, hl, hq, hs, by rw [Function.update_of_ne (hne l q hl hq hs)]; exact hlevel⟩
  · rintro ⟨l, q, hl, hq, hs, hlevel⟩
    rw [Function.update_of_ne (hne l q hl hq hs)] at hlevel
    exact ⟨l, q, hl, hq, hs, hlevel⟩

omit [DecidableEq β] in
/-- **A command.**  The level of one device changes, and with it one source of its line. -/
theorem PciInv.command {base : BitVec 32} {d : DeviceTables β} {level : ℕ → Bool}
    (hi : PciInv base d level) {x : Answers} (hx : ∀ b, x.vmSetIrqLevel b = 0) {k : ℕ}
    {p : Pcidev β} (hk : d.pciDevs[k]? = some p) (b : Bool) :
    PciInv base (pciIntxChange d x (pciMapIrq p) (pciSlot p.devfn).toNat b).2
      (Function.update level k b) := by
  obtain ⟨hirq, hother, -⟩ := pciIntxChange_frame d x (pciMapIrq p) (pciSlot p.devfn).toNat b
  have hslot := pciSlot_lt p.devfn
  have hown := pciIntxChange_sources d x (pciMapIrq p) b (Nat.lt_trans hslot (by decide))
  have hbits : ∀ j < 64,
      ((pciIntxChange d x (pciMapIrq p) (pciSlot p.devfn).toNat b).2.pciIntx
          (pciMapIrq p)).sources.getLsbD j
        = if j = (pciSlot p.devfn).toNat ∨ ((pciSlot p.devfn).toNat = 31 ∧ 31 ≤ j) then b
          else (d.pciIntx (pciMapIrq p)).sources.getLsbD j := by
    intro j hj
    rw [hown, getLsbD_changedSources b hslot hj]
  -- a device with another index has another slot
  have hindex : ∀ (l : ℕ) (q : Pcidev β), d.pciDevs[l]? = some q →
      (pciSlot q.devfn).toNat = (pciSlot p.devfn).toNat → l = k :=
    fun l q hl hs => hi.slots l k q p hl hk (BitVec.eq_of_toNat_eq hs)
  refine ⟨?_, ?_, hi.backend, hi.slots, ?_, ?_, ?_⟩
  · intro i
    rw [hirq i]
    exact hi.base i
  · exact (hi.intx.change (Or.inr (Or.inr (hx b)))).driven
  · intro i j hj
    by_cases hline : i = pciMapIrq p
    · subst hline
      rw [hbits j (by omega)]
      by_cases he : j = (pciSlot p.devfn).toNat
      · rw [if_pos (Or.inl he)]
        constructor
        · intro hb
          exact ⟨k, p, hk, rfl, he.symm, by rw [Function.update_self]; exact hb⟩
        · rintro ⟨l, q, hl, -, hs, hlevel⟩
          have hlk := hindex l q hl (by rw [hs, he])
          rw [hlk, Function.update_self] at hlevel
          exact hlevel
      · rw [if_neg (by omega), hi.sources _ j hj]
        exact active_update_iff hk b fun h => he h.2.symm
    · rw [hother i hline, hi.sources i j hj]
      exact active_update_iff hk b fun h => hline h.1.symm
  · intro i j hge hj
    by_cases hline : i = pciMapIrq p
    · subst hline
      rw [hbits j hj, hbits 31 (by decide)]
      by_cases h31 : (pciSlot p.devfn).toNat = 31
      · rw [if_pos (Or.inr ⟨h31, hge⟩), if_pos (Or.inr ⟨h31, le_refl 31⟩)]
      · rw [if_neg (by omega), if_neg (by omega)]
        exact hi.high _ j hge hj
    · rw [hother i hline]
      exact hi.high i j hge hj
  · intro l hl
    have hlen : k < d.pciDevs.length := by
      obtain ⟨h, -⟩ := List.getElem?_eq_some_iff.mp hk
      exact h
    have hl' : d.pciDevs.length ≤ l := hl
    rw [Function.update_of_ne (by omega)]
    exact hi.fresh l hl'

/-- Where the backend's numbers are slots, the lookup finds the addressed device. -/
theorem pcidevFind_eq {base : BitVec 32} {d : DeviceTables β} {level : ℕ → Bool}
    (hi : PciInv base d level) (ioProxy : β) (slot : Word) :
    pcidevFind d ioProxy (pciDevfn slot 0#64)
      = (addressed d ioProxy (pciSlot (pciDevfn slot 0#64))).bind fun k => d.pciDevs[k]? := by
  have hcongr : d.pciDevs.find? (fun p => p.ioProxy = ioProxy ∧
        p.backendDevfn = pciDevfn slot 0#64)
      = d.pciDevs.find? (fun p => p.ioProxy = ioProxy ∧
        pciSlot p.backendDevfn = pciSlot (pciDevfn slot 0#64)) := by
    apply List.find?_congr
    intro p hp
    obtain ⟨slot', hslot'⟩ := hi.backend p hp
    rw [hslot']
    exact decide_eq_decide.mpr (and_congr_right fun _ => pciDevfn_eq_iff)
  rw [pcidevFind, hcongr, List.find?_eq_bind_findIdx?_getElem?]
  rfl

theorem getElem?_of_addressed {d : DeviceTables β} {ioProxy : β} {slot : BitVec 32} {k : ℕ}
    (h : addressed d ioProxy slot = some k) : ∃ p, d.pciDevs[k]? = some p := by
  obtain ⟨hlt, -⟩ := List.findIdx?_eq_some_iff_getElem.mp h
  exact ⟨_, List.getElem?_eq_getElem hlt⟩

theorem pcidevIntxSet_none {base : BitVec 32} {d : DeviceTables β} {level : ℕ → Bool}
    (hi : PciInv base d level) (x : Answers) {ioProxy : β} {slot : Word} (b : Bool)
    (h : addressed d ioProxy (pciSlot (pciDevfn slot 0#64)) = none) :
    pcidevIntxSet d x ioProxy (pciDevfn slot 0#64) b = (-1, d) := by
  rcases pcidevIntxSet_cases d x ioProxy (pciDevfn slot 0#64) b with ⟨-, hr⟩ | ⟨p, hf, -⟩
  · exact hr
  · rw [pcidevFind_eq hi, h] at hf
    cases hf

/-- A command to the addressed device succeeds. -/
theorem pcidevIntxSet_some {base : BitVec 32} {d : DeviceTables β} {level : ℕ → Bool}
    (hi : PciInv base d level) {x : Answers} (hx : ∀ b, x.vmSetIrqLevel b = 0) {ioProxy : β}
    {slot : Word} (b : Bool) {k : ℕ}
    (h : addressed d ioProxy (pciSlot (pciDevfn slot 0#64)) = some k) :
    ∃ p, d.pciDevs[k]? = some p ∧
      (pcidevIntxSet d x ioProxy (pciDevfn slot 0#64) b).1 = 0 ∧
      (pcidevIntxSet d x ioProxy (pciDevfn slot 0#64) b).2
        = (pciIntxChange d x (pciMapIrq p) (pciSlot p.devfn).toNat b).2 := by
  obtain ⟨p, hp⟩ := getElem?_of_addressed h
  have hfind : pcidevFind d ioProxy (pciDevfn slot 0#64) = some p := by
    rw [pcidevFind_eq hi, h]
    exact hp
  rcases pcidevIntxSet_cases d x ioProxy (pciDevfn slot 0#64) b with ⟨hnone, -⟩ | ⟨q, hq, hr⟩
  · rw [hfind] at hnone
    cases hnone
  · rw [hfind] at hq
    cases hq
    refine ⟨p, hp, ?_, by rw [hr]⟩
    rw [hr]
    show (sharedIrqLineChange d.vm x _ (pciSlot p.devfn).toNat b).1 = 0
    rcases sharedIrqLineChange_cases d.vm x (d.pciIntx (pciMapIrq p)) (pciSlot p.devfn).toNat b with
      ⟨hge, -⟩ | ⟨-, -, hc⟩ | ⟨-, -, hc⟩
    · exact absurd hge (Nat.not_le.mpr (Nat.lt_trans (pciSlot_lt _) (by decide)))
    · rw [hc]
    · rw [hc]
      exact hx b

/-- An interrupt event of no device changes nothing. -/
theorem handlePciIntx_none {base : BitVec 32} {d : DeviceTables β} {level : ℕ → Bool}
    (hi : PciInv base d level) (x : Answers) {ioProxy : β} {slot : Word} (irqOp : BitVec 32)
    (h : addressed d ioProxy (pciSlot (pciDevfn slot 0#64)) = none) :
    (handlePciIntx d x ioProxy (pciDevfn slot 0#64) irqOp).2 = d := by
  unfold handlePciIntx
  simp only [pcidevIntxSet_none hi x _ h]
  split
  · rfl
  · split
    · rfl
    · split
      · rfl
      · rfl

/-- An interrupt event leaves its device at the commanded level. -/
theorem PciInv.intxEvent {base : BitVec 32} {d : DeviceTables β} {level : ℕ → Bool}
    (hi : PciInv base d level) {x : Answers} (hx : ∀ b, x.vmSetIrqLevel b = 0) {ioProxy : β}
    {slot : Word} (irqOp : BitVec 32) {k : ℕ}
    (h : addressed d ioProxy (pciSlot (pciDevfn slot 0#64)) = some k) :
    PciInv base (handlePciIntx d x ioProxy (pciDevfn slot 0#64) irqOp).2
      (match commandedLevel irqOp with
        | some b => Function.update level k b
        | none => level) := by
  -- each half of an operation is one command to the same device
  have hcommand : ∀ b, PciInv base (pcidevIntxSet d x ioProxy (pciDevfn slot 0#64) b).2
      (Function.update level k b) := by
    intro b
    obtain ⟨p, hp, -, hr⟩ := pcidevIntxSet_some hi hx b h
    rw [hr]
    exact hi.command hx hp b
  unfold handlePciIntx commandedLevel
  by_cases hset : irqOp = rpcIrqSet
  · rw [if_pos hset, if_pos hset]
    exact hcommand true
  · rw [if_neg hset, if_neg hset]
    by_cases hclr : irqOp = rpcIrqClr
    · rw [if_pos hclr, if_pos hclr]
      exact hcommand false
    · rw [if_neg hclr, if_neg hclr]
      by_cases hpulse : irqOp = rpcIrqPulse
      · rw [if_pos hpulse, if_pos hpulse]
        obtain ⟨p, hp, hok, hr⟩ := pcidevIntxSet_some hi hx true h
        have hfirst := hcommand true
        have hagain : addressed (pcidevIntxSet d x ioProxy (pciDevfn slot 0#64) true).2 ioProxy
            (pciSlot (pciDevfn slot 0#64)) = some k := by
          rw [hr]
          exact h
        obtain ⟨q, hq, -, hr'⟩ := pcidevIntxSet_some hfirst hx false hagain
        have hsecond := hfirst.command hx hq false
        rw [← hr', Function.update_idem] at hsecond
        simpa only [hok, ne_eq, not_true_eq_false, if_false] using hsecond
      · rw [if_neg hpulse, if_neg hpulse]
        exact hi

omit [DecidableEq β] in
/-- What `pcidev_register` does. -/
theorem pcidevRegister_cases (d : DeviceTables β) (x : Answers) (ioProxy : β)
    (backendDevfn : BitVec 32) :
    pcidevRegister d x ioProxy backendDevfn = (-1, d) ∨
      (x.vmmPciAddEntry = 0 ∧ pcidevRegister d x ioProxy backendDevfn
        = (0, { d with pciDevs := d.pciDevs ++
                  [⟨pciDevfn (x.pciDev.setWidth 64) (x.pciFun.setWidth 64), backendDevfn,
                    ioProxy⟩] })) := by
  unfold pcidevRegister
  by_cases hfull : pciNumAvailDevices ≤ d.pciDevs.length
  · exact Or.inl (if_pos hfull)
  · rw [if_neg hfull]
    by_cases halloc : !x.calloc
    · exact Or.inl (if_pos halloc)
    · rw [if_neg halloc]
      by_cases hadd : x.vmmPciAddEntry ≠ 0
      · exact Or.inl (if_pos hadd)
      · rw [if_neg hadd]
        exact Or.inr ⟨not_not.mp hadd, rfl⟩

omit [DecidableEq β] in
/-- **A registration.**  The new device has a slot of its own and a low level. -/
theorem PciInv.register {base : BitVec 32} {d : DeviceTables β} {level : ℕ → Bool}
    (hi : PciInv base d level) {x : Answers} {ioProxy : β} {slot : Word}
    (hdev : x.vmmPciAddEntry = 0 → x.pciDev.toNat < pciNumSlots ∧
      ∀ p ∈ d.pciDevs, (pciSlot p.devfn).toNat ≠ x.pciDev.toNat) :
    PciInv base (pcidevRegister d x ioProxy (pciDevfn slot 0#64)).2 level := by
  rcases pcidevRegister_cases d x ioProxy (pciDevfn slot 0#64) with hr | ⟨hadd, hr⟩
  · rw [hr]
    exact hi
  · obtain ⟨hlt, hnew⟩ := hdev hadd
    have hslot : (pciSlot (pciDevfn (x.pciDev.setWidth 64) (x.pciFun.setWidth 64))).toNat
        = x.pciDev.toNat :=
      pciSlot_devfn_toNat hlt
    rw [hr]
    -- an index of the longer table is one of the old ones or the last
    have hindex : ∀ (new : Pcidev β) (k : ℕ) (p : Pcidev β), (d.pciDevs ++ [new])[k]? = some p →
        d.pciDevs[k]? = some p ∨ (k = d.pciDevs.length ∧ p = new) := by
      intro new k p hk
      by_cases hold : k < d.pciDevs.length
      · rw [List.getElem?_append_left hold] at hk
        exact Or.inl hk
      · rw [List.getElem?_append_right (Nat.le_of_not_lt hold)] at hk
        obtain ⟨hz, hp⟩ := List.getElem?_eq_some_iff.mp hk
        have hzero : k - d.pciDevs.length = 0 := by simpa using hz
        refine Or.inr ⟨by omega, ?_⟩
        rw [← hp]
        simp [hzero]
    have hkeep : ∀ (new : Pcidev β) (k : ℕ) (p : Pcidev β), d.pciDevs[k]? = some p →
        (d.pciDevs ++ [new])[k]? = some p := by
      intro new k p hk
      obtain ⟨hlen, -⟩ := List.getElem?_eq_some_iff.mp hk
      rw [List.getElem?_append_left hlen]
      exact hk
    have hmem : ∀ (k : ℕ) (p : Pcidev β), d.pciDevs[k]? = some p →
        (pciSlot p.devfn).toNat ≠ x.pciDev.toNat :=
      fun k p hk => hnew p (List.mem_of_getElem? hk)
    refine ⟨hi.base, hi.driven, ?_, ?_, ?_, hi.high, ?_⟩
    · intro p hp
      rcases List.mem_append.mp hp with hp | hp
      · exact hi.backend p hp
      · rw [List.mem_singleton.mp hp]
        exact ⟨slot, rfl⟩
    · intro k l p q hk hl hpq
      rcases hindex _ k p hk with hold | ⟨hlast, rfl⟩
      · rcases hindex _ l q hl with hold' | ⟨-, rfl⟩
        · exact hi.slots k l p q hold hold' hpq
        · exact absurd (by rw [hpq]; exact hslot) (hmem k p hold)
      · rcases hindex _ l q hl with hold' | ⟨hlast', -⟩
        · exact absurd (by rw [← hpq]; exact hslot) (hmem l q hold')
        · rw [hlast, hlast']
    · intro i j hj
      rw [hi.sources i j hj]
      constructor
      · rintro ⟨k, p, hk, hp, hs, hlevel⟩
        exact ⟨k, p, hkeep _ k p hk, hp, hs, hlevel⟩
      · rintro ⟨k, p, hk, hp, hs, hlevel⟩
        rcases hindex _ k p hk with hk | ⟨hk, -⟩
        · exact ⟨k, p, hk, hp, hs, hlevel⟩
        · rw [hi.fresh k (by omega)] at hlevel
          cases hlevel
    · intro k hk
      have hlen : (d.pciDevs ++ [(⟨pciDevfn (x.pciDev.setWidth 64) (x.pciFun.setWidth 64),
          pciDevfn slot 0#64, ioProxy⟩ : Pcidev β)]).length ≤ k := hk
      rw [List.length_append, List.length_singleton] at hlen
      exact hi.fresh k (by omega)

/-- The slot of an interrupt event is a backend slot. -/
theorem pciSlot_of_irqIsPci {w : Word} (h : irqIsPci (w.setWidth 32) = true) :
    pciSlot (pciDevfn w 0#64) = w.setWidth 32 := by
  have hlt : (w.setWidth 32).toNat < 32 := of_decide_eq_true h
  rw [pciSlot_pciDevfn]
  apply BitVec.eq_of_toNat_eq
  have hmask : (0x1f#64 : Word).toNat = 2 ^ 5 - 1 := rfl
  rw [BitVec.toNat_setWidth] at hlt ⊢
  rw [BitVec.toNat_setWidth, BitVec.toNat_and, hmask, Nat.and_two_pow_sub_one_eq_mod]
  omega

/-- **Step.** -/
theorem PciInv.step {base : BitVec 32} {s : PciRun β} (hi : PciInv base s.tables s.level)
    {e : PciEvent β} (ho : e.Orderly s.tables) :
    PciInv base (handlePci e.x e.ioProxy e.op e.msg s.tables).2 (e.levels s) := by
  obtain ⟨hx, hadd⟩ := ho
  unfold handlePci PciEvent.levels PciEvent.device
  by_cases hop : e.op = qemuOpSetIrq
  · by_cases hpci : irqIsPci ((e.msg mr1).setWidth 32) = true
    · have hboth : e.op = qemuOpSetIrq ∧ irqIsPci ((e.msg mr1).setWidth 32) = true := ⟨hop, hpci⟩
      have hno : ¬ (!irqIsPci ((e.msg mr1).setWidth 32)) = true := by simp [hpci]
      rw [if_pos hop, if_pos hboth, if_neg hno]
      have hslot := pciSlot_of_irqIsPci hpci
      cases haddr : addressed s.tables e.ioProxy ((e.msg mr1).setWidth 32) with
      | none =>
          have hnone := handlePciIntx_none hi e.x ((e.msg mr2).setWidth 32)
            (by rw [hslot]; exact haddr)
          show PciInv base (handlePciIntx s.tables e.x e.ioProxy _ _).2 s.level
          rw [hnone]
          exact hi
      | some k =>
          have hnext := hi.intxEvent hx ((e.msg mr2).setWidth 32)
            (by rw [hslot]; exact haddr)
          show PciInv base (handlePciIntx s.tables e.x e.ioProxy _ _).2 _
          cases hcmd : commandedLevel ((e.msg mr2).setWidth 32) with
          | none =>
              rw [hcmd] at hnext
              exact hnext
          | some b =>
              rw [hcmd] at hnext
              exact hnext
    · have hno : ¬ (e.op = qemuOpSetIrq ∧ irqIsPci ((e.msg mr1).setWidth 32) = true) :=
        fun h => hpci h.2
      have hyes : (!irqIsPci ((e.msg mr1).setWidth 32)) = true := by simpa using hpci
      rw [if_pos hop, if_neg hno, if_pos hyes]
      exact hi
  · have hno : ¬ (e.op = qemuOpSetIrq ∧ irqIsPci ((e.msg mr1).setWidth 32) = true) :=
      fun h => hop h.1
    rw [if_neg hop, if_neg hno]
    by_cases hreg : e.op = qemuOpRegisterPciDev
    · rw [if_pos hreg]
      exact hi.register (hadd hreg)
    · rw [if_neg hreg]
      exact hi

theorem pciInv_reachable {base : BitVec 32} {s : PciRun β} (h : (pciLts base).Reachable s) :
    PciInv base s.tables s.level := by
  apply h.invariant (I := fun s => PciInv base s.tables s.level)
  · intro s hs
    obtain ⟨hdevs, hlines, hlow, hlevel⟩ := hs
    refine ⟨?_, ?_, ?_, ?_, ?_, ?_, ?_⟩
    · intro i
      rw [hlines i]
    · intro i
      unfold Driven
      rw [hlines i]
      simp [hlow i]
    · intro p hp
      rw [hdevs] at hp
      cases hp
    · intro k l p q hk
      rw [hdevs] at hk
      cases hk
    · intro i j _
      rw [hlines i, hdevs]
      simp
    · intro i j _ _
      rw [hlines i, BitVec.getLsbD_zero, BitVec.getLsbD_zero]
    · intro k _
      rw [hlevel]
  · intro s e t _ hs hst
    obtain ⟨ho, rfl⟩ := hst
    exact hs.step ho

/-! ### The lines over a run -/

omit [DecidableEq β] in
/-- The line is at the OR of the devices on it. -/
theorem PciInv.level_iff {base : BitVec 32} {d : DeviceTables β} {level : ℕ → Bool}
    (hi : PciInv base d level) (i : Fin pciNumPins) :
    d.vm.level (base + BitVec.ofNat 32 i) = true ↔
      ∃ (k : ℕ) (p : Pcidev β), d.pciDevs[k]? = some p ∧ pciMapIrq p = i ∧ level k = true := by
  have hdriven := hi.driven i
  unfold Driven at hdriven
  rw [hi.base i, ne_zero_iff_exists_bit] at hdriven
  rw [hdriven]
  constructor
  · rintro ⟨j, hj, hbit⟩
    -- a source above 31 is a copy of source 31
    have hlow : ∃ j < 32, (d.pciIntx i).sources.getLsbD j = true := by
      by_cases h32 : j < 32
      · exact ⟨j, h32, hbit⟩
      · rw [hi.high i j (by omega) hj] at hbit
        exact ⟨31, by decide, hbit⟩
    obtain ⟨j, hj, hbit⟩ := hlow
    obtain ⟨k, p, hk, hp, -, hlevel⟩ := (hi.sources i j hj).mp hbit
    exact ⟨k, p, hk, hp, hlevel⟩
  · rintro ⟨k, p, hk, hp, hlevel⟩
    have hlt := pciSlot_lt p.devfn
    exact ⟨(pciSlot p.devfn).toNat, by omega,
      (hi.sources i _ hlt).mpr ⟨k, p, hk, hp, rfl, hlevel⟩⟩

omit [DecidableEq β] in
/-- A device contributes its own level. -/
theorem PciInv.contribution_eq {base : BitVec 32} {d : DeviceTables β} {level : ℕ → Bool}
    (hi : PciInv base d level) {k : ℕ} {p : Pcidev β} (hk : d.pciDevs[k]? = some p) :
    contribution d p = level k := by
  apply Bool.eq_iff_iff.mpr
  unfold contribution
  rw [hi.sources _ _ (pciSlot_lt p.devfn)]
  constructor
  · rintro ⟨l, q, hl, -, hs, hlevel⟩
    rw [← hi.slots l k q p hl hk (BitVec.eq_of_toNat_eq hs)]
    exact hlevel
  · intro hlevel
    exact ⟨k, p, hk, rfl, rfl, hlevel⟩

theorem pcidevIntxSet_pciDevs (d : DeviceTables β) (x : Answers) (ioProxy : β)
    (backendDevfn : BitVec 32) (b : Bool) :
    (pcidevIntxSet d x ioProxy backendDevfn b).2.pciDevs = d.pciDevs := by
  rcases pcidevIntxSet_cases d x ioProxy backendDevfn b with ⟨-, hr⟩ | ⟨p, -, hr⟩
  · rw [hr]
  · rw [hr]
    rfl

/-- Registered devices keep their place. -/
theorem handlePci_pciDevs (x : Answers) (ioProxy : β) (op : Word) (msg : RpcMsg)
    (d : DeviceTables β) {k : ℕ} {p : Pcidev β} (hk : d.pciDevs[k]? = some p) :
    (handlePci x ioProxy op msg d).2.pciDevs[k]? = some p := by
  unfold handlePci
  split
  · split
    · exact hk
    · show (handlePciIntx d x ioProxy _ _).2.pciDevs[k]? = some p
      unfold handlePciIntx
      split
      · rw [pcidevIntxSet_pciDevs]
        exact hk
      · split
        · rw [pcidevIntxSet_pciDevs]
          exact hk
        · split
          · simp only
            split
            · rw [pcidevIntxSet_pciDevs]
              exact hk
            · rw [pcidevIntxSet_pciDevs, pcidevIntxSet_pciDevs]
              exact hk
          · exact hk
  · split
    · show (pcidevRegister d x ioProxy _).2.pciDevs[k]? = some p
      rcases pcidevRegister_cases d x ioProxy (pciDevfn (msg mr1) 0#64) with hr | ⟨-, hr⟩
      · rw [hr]
        exact hk
      · obtain ⟨hlen, -⟩ := List.getElem?_eq_some_iff.mp hk
        rw [hr]
        show (d.pciDevs ++ _)[k]? = some p
        rw [List.getElem?_append_left hlen]
        exact hk
    · exact hk

theorem PciEvent.levels_of_ne {e : PciEvent β} {s : PciRun β} {k : ℕ}
    (h : e.device s.tables ≠ some k) : e.levels s k = s.level k := by
  unfold PciEvent.levels
  cases hl : e.device s.tables with
  | none => rfl
  | some l =>
      cases commandedLevel ((e.msg mr2).setWidth 32) with
      | none => rfl
      | some b =>
          have hne : k ≠ l := by
            intro hkl
            apply h
            rw [hl, hkl]
          exact Function.update_of_ne hne _ _

/-- **PCI interrupts.**  After any run of PCI events each line is at the OR of the levels of the
devices whose configuration space names it, and an event leaves what every device contributes that
it does not address. -/
theorem pci_levels {base : BitVec 32} {s : PciRun β} (h : (pciLts base).Reachable s) :
    (∀ (read : Pcidev β → BitVec 32 → ℕ → Word) (i : Fin pciNumPins),
      s.tables.vm.level (s.tables.pciIntx i).irq = true ↔
        ∃ (k : ℕ) (p : Pcidev β), s.tables.pciDevs[k]? = some p ∧
          Names base read p (s.tables.pciIntx i).irq ∧ s.level k = true) ∧
      ∀ e t, (pciLts base).step s e t → ∀ (k : ℕ) (p : Pcidev β), s.tables.pciDevs[k]? = some p →
        e.device s.tables ≠ some k → contribution t.tables p = contribution s.tables p := by
  have hi := pciInv_reachable h
  refine ⟨?_, ?_⟩
  · intro read i
    rw [hi.base i, hi.level_iff i]
    simp only [names_iff]
  · intro e t hst k p hk hne
    obtain ⟨ho, rfl⟩ := hst
    have hk' := handlePci_pciDevs e.x e.ioProxy e.op e.msg s.tables hk
    rw [(hi.step ho).contribution_eq hk', hi.contribution_eq hk]
    exact PciEvent.levels_of_ne hne

end Pci

/-- A VM after `irq_init`, with no device. -/
def noDevice (base : BitVec 32) : PciRun Bool where
  tables :=
    { vm := ⟨[], 0, [], fun _ => false⟩
      pciIntx := fun i => ⟨base + BitVec.ofNat 32 i, 0#64⟩
      pciDevs := []
      irqs := []
      mmioReservations := []
      okToRun := fun _ => true }
  level := fun _ => false

/-- An event for which every call succeeds, a new device getting slot 1. -/
def pciEvent (ioProxy : Bool) (op w1 w2 : Word) : PciEvent Bool :=
  ⟨callsSucceed, ioProxy, op, eventMsg op w1 w2 0#64⟩

/-- A backend registers its device 3 and sets its interrupt. -/
theorem pci_levels_set :
    ∃ s : PciRun Bool, s.tables.pciDevs = [⟨8#32, 24#32, true⟩] ∧ s.level 0 = true ∧
      (s.tables.vm.level (s.tables.pciIntx 1).irq = true ↔
        ∃ (k : ℕ) (p : Pcidev Bool), s.tables.pciDevs[k]? = some p ∧
          Names 128#32 (fun _ _ _ => 0#64) p (s.tables.pciIntx 1).irq ∧ s.level k = true) := by
  let register := pciEvent true qemuOpRegisterPciDev 3#64 0#64
  let set := pciEvent true qemuOpSetIrq 3#64 1#64
  let s : PciRun Bool := ⟨(handlePci register.x true register.op register.msg
    (noDevice 128#32).tables).2, register.levels (noDevice 128#32)⟩
  let t : PciRun Bool := ⟨(handlePci set.x true set.op set.msg s.tables).2, set.levels s⟩
  have hinit : (pciLts 128#32).init (noDevice 128#32) := ⟨rfl, fun _ => rfl, fun _ => rfl, rfl⟩
  have hregister : (pciLts 128#32).step (noDevice 128#32) register s := by
    refine ⟨⟨fun _ => rfl, fun _ _ => ⟨by decide, ?_⟩⟩, rfl⟩
    intro p hp
    cases hp
  have hset : (pciLts 128#32).step s set t := by
    refine ⟨⟨fun _ => rfl, ?_⟩, rfl⟩
    intro hop
    exact absurd hop (by decide)
  have hreach : (pciLts 128#32).Reachable t := ((Lts.Reachable.init hinit).step hregister).step hset
  obtain ⟨hlines, -⟩ := pci_levels hreach
  exact ⟨t, by decide +kernel, by decide +kernel, hlines _ 1⟩

end TiiSel4Vm.Devices
