import TiiSel4Vm.Rpc.Fields

/-!
# The device tables of a VM and their events

A backend registers PCI devices, reserves MMIO regions and drives interrupt lines by events, which
`rpc_process` gives to its callbacks in turn.  The tables are one for the VM; their entries name the
backend.

What the functions of `libsel4vm`, the allocator and the lists answer is given with every event
(`Answers`), and `Vm` is what they leave behind.

* `irqResFind`, `irqResAssign`, `mmioResAssign`, `mmioResFree` — the tables of emulated devices;
* `pcidevRegister`, `pcidevIntxSet`, `sharedIrqLineChange` — PCI devices and the INTx lines;
* `rpcProcess` — an event.
-/

namespace TiiSel4Vm.Devices

open TiiSel4Vm.RpcQueue

/-! ### The VM -/

/-- A region that `vm_reserve_memory_at` reserved. -/
structure Region where
  res : ℕ
  addr : Word
  size : Word
  deriving DecidableEq

/-- What the calls to `libsel4vm` leave behind. -/
structure Vm where
  reserved : List Region
  /-- the next `vm_memory_reservation_t *` -/
  nextRes : ℕ
  registered : List (BitVec 32)
  level : BitVec 32 → Bool

/-- The answers of the calls made for one event.  No event makes a call twice with the same
arguments. -/
structure Answers where
  calloc : Bool
  listAppend : ℤ
  vmReserveMemoryAt : Bool
  vmReservationFree : ℤ
  vmRegisterIrq : ℤ
  vmSetIrqLevel : Bool → ℤ
  vmmPciAddEntry : ℤ
  /-- `dev` and `fun` of the address that `vmm_pci_add_entry` returns -/
  pciDev : BitVec 8
  pciFun : BitVec 8
  /-- the `int` `1 << n` for an `n` of 32 or more, which C leaves undefined -/
  wideShift : ℕ → BitVec 32

/-- An event in which every call succeeds. -/
def callsSucceed : Answers := ⟨true, 0, true, 0, 0, fun _ => 0, 0, 1#8, 0#8, fun _ => 0#32⟩

namespace Vm

/-- `vm_reserve_memory_at`; `none` is NULL. -/
def reserve (vm : Vm) (x : Bool) (addr size : Word) : Option ℕ × Vm :=
  if x then
    (some vm.nextRes, { vm with reserved := vm.reserved ++ [⟨vm.nextRes, addr, size⟩]
                                nextRes := vm.nextRes + 1 })
  else (none, vm)

/-- `vm_reservation_free`. -/
def release (vm : Vm) (x : ℤ) (res : ℕ) : ℤ × Vm :=
  if x = 0 then (0, { vm with reserved := vm.reserved.filter fun r => r.res ≠ res }) else (x, vm)

/-- `vm_register_irq`. -/
def registerIrq (vm : Vm) (x : ℤ) (irq : BitVec 32) : ℤ × Vm :=
  if x = 0 then (0, { vm with registered := vm.registered ++ [irq] }) else (x, vm)

/-- `vm_set_irq_level`. -/
def setIrqLevel (vm : Vm) (x : Bool → ℤ) (irq : BitVec 32) (active : Bool) : ℤ × Vm :=
  if x active = 0 then (0, { vm with level := Function.update vm.level irq active })
  else (x active, vm)

@[simp] theorem release_fst (vm : Vm) (x : ℤ) (res : ℕ) : (vm.release x res).1 = x := by
  unfold Vm.release
  by_cases h : x = 0
  · rw [if_pos h, h]
  · rw [if_neg h]

@[simp] theorem setIrqLevel_fst (vm : Vm) (x : Bool → ℤ) (irq : BitVec 32) (active : Bool) :
    (vm.setIrqLevel x irq active).1 = x active := by
  unfold Vm.setIrqLevel
  by_cases h : x active = 0
  · rw [if_pos h, h]
  · rw [if_neg h]

/-- The level of another line is not driven. -/
theorem setIrqLevel_other (vm : Vm) (x : Bool → ℤ) {irq irq' : BitVec 32} (active : Bool)
    (h : irq' ≠ irq) : (vm.setIrqLevel x irq active).2.level irq' = vm.level irq' := by
  unfold Vm.setIrqLevel
  by_cases hx : x active = 0
  · rw [if_pos hx]
    exact Function.update_of_ne h _ _
  · rw [if_neg hx]

theorem setIrqLevel_self (vm : Vm) {x : Bool → ℤ} (irq : BitVec 32) {active : Bool}
    (h : x active = 0) : (vm.setIrqLevel x irq active).2.level irq = active := by
  unfold Vm.setIrqLevel
  rw [if_pos h]
  exact Function.update_self _ _ _

end Vm

/-! ### The tables -/

/-- `shared_irq_line_t`; the vCPU is always the boot vCPU. -/
structure SharedIrqLine where
  irq : BitVec 32
  sources : Word
  deriving DecidableEq

/-- `pcidev_t`. -/
structure Pcidev (β : Type) where
  devfn : BitVec 32
  backendDevfn : BitVec 32
  ioProxy : β
  deriving DecidableEq

/-- `irq_line_t`; the vCPU is always the boot vCPU. -/
structure IrqLine (β : Type) where
  irq : BitVec 32
  cookie : β
  deriving DecidableEq

/-- `irq_line_pulse`, on any state that the calls of `vm_set_irq_level` work on. -/
def irqLinePulse {β σ : Type} (vmSetIrqLevel : BitVec 32 → Bool → σ → ℤ × σ) (line : IrqLine β)
    (s : σ) : ℤ × σ :=
  let r := vmSetIrqLevel line.irq true s
  if r.1 ≠ 0 then r else vmSetIrqLevel line.irq false r.2

/-- `mmio_reservation_t`. -/
structure MmioReservation (β : Type) where
  addr : Word
  size : Word
  res : ℕ
  ioProxy : β
  deriving DecidableEq

/-- `PCI_NUM_SLOTS`. -/
abbrev pciNumSlots : ℕ := 32

/-- `PCI_NUM_PINS`. -/
abbrev pciNumPins : ℕ := 4

/-- `PCI_NUM_AVAIL_DEVICES`. -/
abbrev pciNumAvailDevices : ℕ := pciNumSlots - 1

/-- The device tables. -/
structure DeviceTables (β : Type) where
  vm : Vm
  pciIntx : Fin pciNumPins → SharedIrqLine
  /-- `pci_devs` up to `pci_dev_count` -/
  pciDevs : List (Pcidev β)
  irqs : List (IrqLine β)
  mmioReservations : List (MmioReservation β)
  okToRun : β → Bool

/-- `RPCMSG_RC_ERROR`, `RPCMSG_RC_NONE` and `RPCMSG_RC_HANDLED`. -/
inductive RpcmsgRc where
  | error
  | none
  | handled
  deriving DecidableEq

section Tables

variable {β : Type} [DecidableEq β]

/-- `irq_res_find`. -/
def irqResFind (d : DeviceTables β) (ioProxy : β) (irq : BitVec 32) : Option (IrqLine β) :=
  d.irqs.find? fun l => l.irq = irq ∧ l.cookie = ioProxy

omit [DecidableEq β] in
/-- `irq_res_assign`. -/
def irqResAssign (d : DeviceTables β) (x : Answers) (ioProxy : β) (irq : BitVec 32) :
    ℤ × DeviceTables β :=
  if !x.calloc then (-1, d)
  else
    let r := d.vm.registerIrq x.vmRegisterIrq irq
    if r.1 ≠ 0 then (-1, { d with vm := r.2 })
    else if x.listAppend ≠ 0 then (x.listAppend, { d with vm := r.2 })
    else (0, { d with vm := r.2, irqs := d.irqs ++ [⟨irq, ioProxy⟩] })

omit [DecidableEq β] in
/-- `mmio_res_assign`. -/
def mmioResAssign (d : DeviceTables β) (x : Answers) (ioProxy : β) (addr size : Word) :
    ℤ × DeviceTables β :=
  match d.vm.reserve x.vmReserveMemoryAt addr size with
  | (none, vm) => (-1, { d with vm := vm })
  | (some res, vm) =>
      if !x.calloc then (-1, { d with vm := vm })
      else if x.listAppend ≠ 0 then (x.listAppend, { d with vm := vm })
      else
        (0, { d with vm := vm
                     mmioReservations := d.mmioReservations ++ [⟨addr, size, res, ioProxy⟩] })

/-- `mmio_res_cmp` finds the reservation. -/
def MmioReservation.Is (m : MmioReservation β) (ioProxy : β) (addr size : Word) : Bool :=
  m.addr = addr ∧ m.size = size ∧ m.ioProxy = ioProxy

/-- `mmio_res_free`. -/
def mmioResFree (d : DeviceTables β) (x : Answers) (ioProxy : β) (addr size : Word) :
    ℤ × DeviceTables β :=
  match d.mmioReservations.find? fun m => m.Is ioProxy addr size with
  | none => (-1, d)
  | some m =>
      let r := d.vm.release x.vmReservationFree m.res
      (r.1, { d with vm := r.2
                     mmioReservations := d.mmioReservations.eraseP fun m =>
                       m.Is ioProxy addr size })

theorem irqResFind_isSome_iff {d : DeviceTables β} {io : β} {irq : BitVec 32} :
    (irqResFind d io irq).isSome ↔ ∃ l ∈ d.irqs, l.irq = irq ∧ l.cookie = io := by
  simp [irqResFind]

theorem MmioReservation.is_iff {m : MmioReservation β} {io : β} {addr size : Word} :
    m.Is io addr size = true ↔ m.addr = addr ∧ m.size = size ∧ m.ioProxy = io := by
  simp [MmioReservation.Is]

theorem mmioResFree_eq_zero_iff {d : DeviceTables β} {x : Answers} {io : β} {addr size : Word} :
    (mmioResFree d x io addr size).1 = 0 ↔
      x.vmReservationFree = 0 ∧
        ∃ m ∈ d.mmioReservations, m.addr = addr ∧ m.size = size ∧ m.ioProxy = io := by
  unfold mmioResFree
  cases hf : d.mmioReservations.find? fun m => m.Is io addr size with
  | none =>
      have hnone := List.find?_eq_none.mp hf
      constructor
      · intro h
        cases h
      · rintro ⟨-, m, hm, hkey⟩
        exact absurd (MmioReservation.is_iff.mpr hkey) (hnone m hm)
  | some m =>
      have his := List.find?_some hf
      have hkey := MmioReservation.is_iff.mp his
      have hm := List.mem_of_find?_eq_some hf
      constructor
      · intro h
        exact ⟨by simpa using h, m, hm, hkey⟩
      · rintro ⟨hx, -⟩
        simpa using hx

/-! ### Emulated devices -/

/-- `irq_is_emulated_device`. -/
def irqIsEmulatedDevice (irq : BitVec 32) : Bool := pciNumSlots ≤ irq.toNat

/-- `RPC_IRQ_CLR`. -/
def rpcIrqClr : BitVec 32 := 0#32

/-- `RPC_IRQ_SET`. -/
def rpcIrqSet : BitVec 32 := 1#32

/-- `RPC_IRQ_PULSE`. -/
def rpcIrqPulse : BitVec 32 := 2#32

omit [DecidableEq β] in
/-- `vm_set_irq_level`, among the tables. -/
def vmSetIrqLevel (x : Answers) (irq : BitVec 32) (active : Bool) (d : DeviceTables β) :
    ℤ × DeviceTables β :=
  let r := d.vm.setIrqLevel x.vmSetIrqLevel irq active
  (r.1, { d with vm := r.2 })

omit [DecidableEq β] in
/-- `irq_line_change`. -/
def irqLineChange (d : DeviceTables β) (x : Answers) (line : IrqLine β) (active : Bool) :
    ℤ × DeviceTables β :=
  vmSetIrqLevel x line.irq active d

omit [DecidableEq β] in
theorem irqLinePulse_eq (d : DeviceTables β) (x : Answers) (line : IrqLine β) :
    irqLinePulse (vmSetIrqLevel x) line d
      = if (irqLineChange d x line true).1 ≠ 0 then irqLineChange d x line true
        else irqLineChange (irqLineChange d x line true).2 x line false :=
  rfl

omit [DecidableEq β] in
/-- What `emudev_irq_set` does with the line it has. -/
def emudevIrqOp (d : DeviceTables β) (x : Answers) (line : IrqLine β) (op : BitVec 32) :
    ℤ × DeviceTables β :=
  if op = rpcIrqSet then irqLineChange d x line true
  else if op = rpcIrqClr then irqLineChange d x line false
  else if op = rpcIrqPulse then irqLinePulse (vmSetIrqLevel x) line d
  else (-1, d)

/-- `emudev_irq_set`, with `emudev_irq_register`. -/
def emudevIrqSet (d : DeviceTables β) (x : Answers) (ioProxy : β) (irq op : BitVec 32) :
    ℤ × DeviceTables β :=
  if !irqIsEmulatedDevice irq then (-1, d)
  else
    match irqResFind d ioProxy irq with
    | some line => emudevIrqOp d x line op
    | none =>
        let r := irqResAssign d x ioProxy irq
        if r.1 ≠ 0 then (-1, r.2)
        else
          match irqResFind r.2 ioProxy irq with
          | none => (-1, r.2)
          | some line => emudevIrqOp r.2 x line op

/-- `SEL4_MMIO_REGION_FREE`, an `unsigned int`. -/
def sel4MmioRegionFree : BitVec 32 := 1#32

/-- `emudev_mmio_config`. -/
def emudevMmioConfig (d : DeviceTables β) (x : Answers) (ioProxy : β) (addr size flags : Word) :
    ℤ × DeviceTables β :=
  if flags &&& (~~~sel4MmioRegionFree).setWidth 64 ≠ 0#64 then (-1, d)
  else if flags &&& sel4MmioRegionFree.setWidth 64 ≠ 0#64 then mmioResFree d x ioProxy addr size
  else mmioResAssign d x ioProxy addr size

/-! ### PCI devices -/

/-- `PCI_DEVFN`. -/
def pciDevfn (slot func : Word) : BitVec 32 :=
  (((slot &&& 0x1f#64) <<< 3) ||| (func &&& 0x07#64)).setWidth 32

/-- `PCI_SLOT`. -/
def pciSlot (devfn : BitVec 32) : BitVec 32 := (devfn >>> 3) &&& 0x1f#32

/-- `irq_is_pci`. -/
def irqIsPci (irq : BitVec 32) : Bool := irq.toNat < pciNumSlots

theorem pciNumPins_pos : 0 < pciNumPins := by decide

/-- `pci_map_irq`, with `pci_swizzle` for pin 0. -/
def pciMapIrq (pcidev : Pcidev β) : Fin pciNumPins :=
  ⟨(pciSlot pcidev.devfn).toNat % pciNumPins, Nat.mod_lt _ pciNumPins_pos⟩

/-- `1 << source`, an `int`. -/
def oneShl (x : Answers) (source : ℕ) : BitVec 32 :=
  if source < 32 then 1#32 <<< source else x.wideShift source

/-- The sources after a change; the `int` mask is converted to their type. -/
def changedSources (x : Answers) (sources : Word) (source : ℕ) (active : Bool) : Word :=
  if active then sources ||| (oneShl x source).signExtend 64
  else sources &&& (~~~(oneShl x source)).signExtend 64

/-- `shared_irq_line_change`. -/
def sharedIrqLineChange (vm : Vm) (x : Answers) (line : SharedIrqLine) (source : ℕ)
    (active : Bool) : ℤ × Vm × SharedIrqLine :=
  if 64 ≤ source then (-1, vm, line)
  else
    let sources := changedSources x line.sources source active
    let line' := { line with sources := sources }
    if (line.sources ≠ 0#64) = (sources ≠ 0#64) then (0, vm, line')
    else
      let r := vm.setIrqLevel x.vmSetIrqLevel line.irq (sources ≠ 0#64)
      (r.1, r.2, line')

omit [DecidableEq β] in
/-- `pcidev_register`. -/
def pcidevRegister (d : DeviceTables β) (x : Answers) (ioProxy : β) (backendDevfn : BitVec 32) :
    ℤ × DeviceTables β :=
  if pciNumAvailDevices ≤ d.pciDevs.length then (-1, d)
  else if !x.calloc then (-1, d)
  else if x.vmmPciAddEntry ≠ 0 then (-1, d)
  else
    (0, { d with pciDevs := d.pciDevs ++
            [⟨pciDevfn (x.pciDev.setWidth 64) (x.pciFun.setWidth 64), backendDevfn, ioProxy⟩] })

/-- `pcidev_find`. -/
def pcidevFind (d : DeviceTables β) (ioProxy : β) (backendDevfn : BitVec 32) : Option (Pcidev β) :=
  d.pciDevs.find? fun p => p.ioProxy = ioProxy ∧ p.backendDevfn = backendDevfn

omit [DecidableEq β] in
/-- `shared_irq_line_change` of `pci_intx[i]`. -/
def pciIntxChange (d : DeviceTables β) (x : Answers) (i : Fin pciNumPins) (source : ℕ)
    (active : Bool) : ℤ × DeviceTables β :=
  let r := sharedIrqLineChange d.vm x (d.pciIntx i) source active
  (r.1, { d with vm := r.2.1, pciIntx := Function.update d.pciIntx i r.2.2 })

/-- `pcidev_intx_set`. -/
def pcidevIntxSet (d : DeviceTables β) (x : Answers) (ioProxy : β) (backendDevfn : BitVec 32)
    (level : Bool) : ℤ × DeviceTables β :=
  if !irqIsPci (pciSlot backendDevfn) then (-1, d)
  else
    match pcidevFind d ioProxy backendDevfn with
    | none => (-1, d)
    | some pcidev =>
        pciIntxChange d x (pciMapIrq pcidev) (pciSlot pcidev.devfn).toNat level

/-- `handle_pci_intx`. -/
def handlePciIntx (d : DeviceTables β) (x : Answers) (ioProxy : β)
    (backendDevfn irqOp : BitVec 32) : ℤ × DeviceTables β :=
  if irqOp = rpcIrqSet then pcidevIntxSet d x ioProxy backendDevfn true
  else if irqOp = rpcIrqClr then pcidevIntxSet d x ioProxy backendDevfn false
  else if irqOp = rpcIrqPulse then
    let r := pcidevIntxSet d x ioProxy backendDevfn true
    if r.1 ≠ 0 then r else pcidevIntxSet r.2 x ioProxy backendDevfn false
  else (-1, d)

/-! ### Events -/

/-- `QEMU_OP_SET_IRQ`. -/
def qemuOpSetIrq : Word := 16#64

/-- `QEMU_OP_START_VM`. -/
def qemuOpStartVm : Word := 18#64

/-- `QEMU_OP_REGISTER_PCI_DEV`. -/
def qemuOpRegisterPciDev : Word := 19#64

/-- `QEMU_OP_MMIO_REGION_CONFIG`. -/
def qemuOpMmioRegionConfig : Word := 20#64

/-- An event's message. -/
def eventMsg (op w1 w2 w3 : Word) : RpcMsg := fun i =>
  if i = mr0 then op else if i = mr1 then w1 else if i = mr2 then w2 else w3

/-- An `rpc_callback_fn_t` at its message. -/
abbrev Callback (β : Type) := DeviceTables β → RpcmsgRc × DeviceTables β

/-- `RPCMSG_RC_ERROR` or `RPCMSG_RC_HANDLED`. -/
def handledUnless (r : ℤ × DeviceTables β) : RpcmsgRc × DeviceTables β :=
  (if r.1 ≠ 0 then .error else .handled, r.2)

/-- `handle_pci`. -/
def handlePci (x : Answers) (ioProxy : β) (op : Word) (msg : RpcMsg) : Callback β := fun d =>
  if op = qemuOpSetIrq then
    if !irqIsPci ((msg mr1).setWidth 32) then (.none, d)
    else handledUnless (handlePciIntx d x ioProxy (pciDevfn (msg mr1) 0#64) ((msg mr2).setWidth 32))
  else if op = qemuOpRegisterPciDev then
    handledUnless (pcidevRegister d x ioProxy (pciDevfn (msg mr1) 0#64))
  else (.none, d)

/-- `handle_emudev`. -/
def handleEmudev (x : Answers) (ioProxy : β) (op : Word) (msg : RpcMsg) : Callback β := fun d =>
  if op = qemuOpMmioRegionConfig then
    handledUnless (emudevMmioConfig d x ioProxy (msg mr1) (msg mr2) (msg mr3))
  else if op = qemuOpSetIrq then
    handledUnless (emudevIrqSet d x ioProxy ((msg mr1).setWidth 32) ((msg mr2).setWidth 32))
  else (.none, d)

/-- `handle_control`. -/
def handleControl (ioProxy : β) (op : Word) : Callback β := fun d =>
  if op = qemuOpStartVm then
    (.handled, { d with okToRun := Function.update d.okToRun ioProxy true })
  else (.none, d)

/-- `handle_mmio`, which only works on the requests of the backend: `mmio` is its result. -/
def handleMmioEvent (mmio : RpcmsgRc) (op : Word) : Callback β := fun d =>
  (if op ≠ qemuOpMmio then .none else mmio, d)

/-- The platform's `handle_msi`: its result, and what its interrupt lines make of the VM. -/
def handleMsi (msi : RpcmsgRc × (Vm → Vm)) : Callback β := fun d =>
  (msi.1, { d with vm := msi.2 d.vm })

/-- The loop of `rpc_process`: the callbacks in turn until one does not return `RPCMSG_RC_NONE`. -/
def runCallbacks : List (Callback β) → Callback β
  | [], d => (.none, d)
  | cb :: cbs, d =>
      let r := cb d
      if r.1 = .none then runCallbacks cbs r.2 else r

/-- `rpc_process`. -/
def rpcProcess (x : Answers) (mmio : RpcmsgRc) (msi : RpcmsgRc × (Vm → Vm)) (ioProxy : β)
    (msg : RpcMsg) (d : DeviceTables β) : ℤ × DeviceTables β :=
  let op := qemuOp (msg mr0)
  let r := runCallbacks [handleMmioEvent mmio op, handleMsi msi, handlePci x ioProxy op msg,
    handleEmudev x ioProxy op msg, handleControl ioProxy op] d
  (if r.1 = .handled then 0 else -1, r.2)

end Tables

end TiiSel4Vm.Devices
