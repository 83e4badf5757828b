import TiiSel4Vm.Lib.CommandLog
import TiiSel4Vm.Vmm.DeviceRequests
import TiiSel4Vm.Vmm.Init

/-!
# Interrupt commands

An interrupt of the VM is raised by PCI devices that share an INTx line, by an emulated device that
names its number, or by the frame for message-signalled interrupts.  Backends are attached and send
events at any time.

* `commandLog` — the commands of the events that are accepted in a run;
* `OnInterrupt` — the sources of an interrupt;
* `Effect` — what an event does to the devices, the INTx lines and the levels, with its command.
-/

namespace TiiSel4Vm.Devices

open TiiSel4Vm.Transition TiiSel4Vm.RpcQueue TiiSel4Vm.CommandLog
open TiiSel4Vm.Msi (Gicv2m V2mInitAnswers v2mInit v2mInitLoop)

/-! ### Commands -/

/-- What drives an interrupt: a PCI device, by its backend and backend slot, or its number. -/
inductive Source (β : Type) where
  | pci (ioProxy : β) (slot : BitVec 32)
  | number (irq : BitVec 32)
  deriving DecidableEq

/-- The level that an operation leaves. -/
def IrqOp.level : IrqOp → Bool
  | .clr => false
  | .set => true
  | .pulse => false

section Commands

variable {β γ : Type}

/-- The command of an interrupt request.  An interrupt of the frame is an edge. -/
def irqCommand (v2m : Option (Gicv2m γ)) (ioProxy : β) (irq : BitVec 32) (op : IrqOp) :
    Option (Source β × Bool) :=
  if isMsi v2m irq then
    match op with
    | .clr => none
    | _ => some (.number irq, false)
  else if irqIsPci irq then some (.pci ioProxy irq, op.level)
  else some (.number irq, op.level)

/-- The command of a request, if it is an interrupt request. -/
def DeviceRequest.command (v2m : Option (Gicv2m γ)) (ioProxy : β) :
    DeviceRequest → Option (Source β × Bool)
  | .setIrqline irq => irqCommand v2m ioProxy (irq.setWidth 32) .set
  | .clearIrqline irq => irqCommand v2m ioProxy (irq.setWidth 32) .clr
  | .pulseIrqline irq => irqCommand v2m ioProxy (irq.setWidth 32) .pulse
  | _ => none

variable [DecidableEq β]

/-- The command of an event that `rpc_process` accepts. -/
def VmmAct.command (v2m : Option (Gicv2m γ)) (w : Vmm β) : VmmAct β → Option (Source β × Bool)
  | .init _ _ _ _ => none
  | .event ioProxy x mmio msi msg =>
      if (rpcProcess x mmio msi ioProxy msg w.tables).1 = 0 then
        (decodeRequest msg).bind (DeviceRequest.command v2m ioProxy)
      else none

/-- The accepted commands of a run, in order. -/
def commandLog (base : BitVec 32) (v2m : Option (Gicv2m γ)) (acts : List (VmmAct β)) :
    List (Source β × Bool) :=
  outputs (vmmStep base) (VmmAct.command v2m) .initial acts

/-! ### Wires -/

/-- An interrupt of the INTx lines. -/
def IsIntx (base irq : BitVec 32) : Prop := ∃ i : Fin pciNumPins, irq = base + BitVec.ofNat 32 i

/-- The sources of an interrupt: its number, and the PCI devices that are found by their backend and
slot and whose configuration space names it. -/
def OnInterrupt (base : BitVec 32) (read : Pcidev β → BitVec 32 → ℕ → Word) (d : DeviceTables β)
    (irq : BitVec 32) : Source β → Prop
  | .pci ioProxy slot =>
      IsIntx base irq ∧ ∃ (k : ℕ) (p : Pcidev β), addressed d ioProxy slot = some k ∧
        d.pciDevs[k]? = some p ∧ Names base read p irq
  | .number n => n = irq

/-- An interrupt of the INTx lines that a backend has also driven by its number. -/
def Contested (base : BitVec 32) (log : List (Source β × Bool)) (irq : BitVec 32) : Prop :=
  IsIntx base irq ∧ last log (.number irq) ≠ none

/-! ### The platform -/

/-- Messages are handled by the platform's `handle_msi`, the interrupt controller takes every level,
and a registered device gets a slot of its own; `msi_init` sets no level. -/
def VmmAct.OnPlatform (v2m : Option (Gicv2m γ)) (w : Vmm β) : VmmAct β → Prop
  | .init _ x _ _ => ∀ vm, (x.msiVm vm).level = vm.level
  | .event _ x _ msi msg =>
      msi = platformMsi v2m x (qemuOp (msg mr0)) msg ∧ (∀ b, x.vmSetIrqLevel b = 0) ∧
        (qemuOp (msg mr0) = qemuOpRegisterPciDev → x.vmmPciAddEntry = 0 →
          x.pciDev.toNat < pciNumSlots ∧
            ∀ p ∈ w.tables.pciDevs, (pciSlot p.devfn).toNat ≠ x.pciDev.toNat)

/-- A VM on the platform, with any backends and events. -/
def platformLts (base : BitVec 32) (v2m : Option (Gicv2m γ)) : Lts (Vmm β) (VmmAct β) :=
  (vmmLts base).restrict fun w act => act.OnPlatform v2m w

end Commands

theorem commandedLevel_code (op : IrqOp) : commandedLevel op.code = some op.level := by
  cases op <;> decide

/-! ### What changes a level -/

namespace Vm

@[simp] theorem reserve_level (vm : Vm) (x : Bool) (addr size : Word) :
    (vm.reserve x addr size).2.level = vm.level := by
  unfold Vm.reserve
  split <;> rfl

@[simp] theorem release_level (vm : Vm) (x : ℤ) (res : ℕ) :
    (vm.release x res).2.level = vm.level := by
  unfold Vm.release
  split <;> rfl

@[simp] theorem registerIrq_level (vm : Vm) (x : ℤ) (irq : BitVec 32) :
    (vm.registerIrq x irq).2.level = vm.level := by
  unfold Vm.registerIrq
  split <;> rfl

theorem setIrqLevel_level (vm : Vm) {x : Bool → ℤ} (irq : BitVec 32) {active : Bool}
    (h : x active = 0) :
    (vm.setIrqLevel x irq active).2.level = Function.update vm.level irq active := by
  unfold Vm.setIrqLevel
  rw [if_pos h]

/-- A pulse that the controller takes. -/
theorem pulse_level (vm : Vm) {x : Bool → ℤ} (hx : ∀ b, x b = 0) (irq : BitVec 32) :
    (vm.pulse x irq).1 = 0 ∧ (vm.pulse x irq).2.level = Function.update vm.level irq false := by
  have hfirst : ¬ (vm.setIrqLevel x irq true).1 ≠ 0 := by
    rw [Vm.setIrqLevel_fst, hx]
    exact fun h => h rfl
  unfold Vm.pulse irqLinePulse
  rw [if_neg hfirst]
  refine ⟨by rw [Vm.setIrqLevel_fst, hx], ?_⟩
  rw [setIrqLevel_level _ irq (hx false), setIrqLevel_level _ irq (hx true), Function.update_idem]

end Vm

/-- `v2m_init` registers interrupts and reserves a region. -/
theorem v2mInit_level {γ : Type} (y : V2mInitAnswers) (cookie : γ) (s : Gicv2m γ) (vm : Vm) :
    (v2mInit y cookie s vm).2.2.level = vm.level := by
  have hloop : ∀ (is : List ℕ) (s : Gicv2m γ) (vm : Vm),
      (v2mInitLoop y cookie is s vm).2.2.level = vm.level := by
    intro is
    induction is with
    | nil => exact fun _ _ => rfl
    | cons i is ih =>
        intro s vm
        have hfirst : (Msi.irqLineInit y cookie (s.irqBase + BitVec.ofNat 32 i) i s vm).2.2.level
            = vm.level := Vm.registerIrq_level vm _ _
        unfold v2mInitLoop
        simp only
        split
        · exact hfirst
        · rw [ih, hfirst]
  unfold v2mInit
  split
  · rfl
  · split
    · rfl
    · simp only
      split
      · exact hloop _ s vm
      · rw [Vm.reserve_level]
        exact hloop _ s vm

/-! ### What an event does -/

section Effect

variable {β γ : Type} [DecidableEq β]

/-- What an event does to the devices, the lines and the levels, and its command; `registers` says
that it may register a PCI device. -/
inductive Effect (x : Answers) (ioProxy : β) (registers : Prop) (d : DeviceTables β) :
    Option (Source β × Bool) → DeviceTables β → Prop
  | quiet {d' : DeviceTables β} (devs : d'.pciDevs = d.pciDevs) (intx : d'.pciIntx = d.pciIntx)
      (level : d'.vm.level = d.vm.level) : Effect x ioProxy registers d none d'
  | register (slot : Word) (may : registers) :
      Effect x ioProxy registers d none (pcidevRegister d x ioProxy (pciDevfn slot 0#64)).2
  | number (irq : BitVec 32) (b : Bool) {d' : DeviceTables β} (devs : d'.pciDevs = d.pciDevs)
      (intx : d'.pciIntx = d.pciIntx) (level : d'.vm.level = Function.update d.vm.level irq b) :
      Effect x ioProxy registers d (some (.number irq, b)) d'
  | pci (irq : BitVec 32) (op : IrqOp) (hpci : irqIsPci irq = true) :
      Effect x ioProxy registers d
        (if (handlePciIntx d x ioProxy (pciDevfn (irq.setWidth 64) 0#64) op.code).1 = 0 then
          some (.pci ioProxy irq, op.level)
        else none)
        (handlePciIntx d x ioProxy (pciDevfn (irq.setWidth 64) 0#64) op.code).2

variable {x : Answers} {ioProxy : β} {registers : Prop} {d : DeviceTables β}

omit [DecidableEq β] in
theorem irqResAssign_keeps (d : DeviceTables β) (x : Answers) (ioProxy : β) (irq : BitVec 32) :
    (irqResAssign d x ioProxy irq).2.pciDevs = d.pciDevs ∧
      (irqResAssign d x ioProxy irq).2.pciIntx = d.pciIntx ∧
        (irqResAssign d x ioProxy irq).2.vm.level = d.vm.level := by
  have hlevel := Vm.registerIrq_level d.vm x.vmRegisterIrq irq
  unfold irqResAssign
  split
  · exact ⟨rfl, rfl, rfl⟩
  · simp only
    split
    · exact ⟨rfl, rfl, hlevel⟩
    · split
      · exact ⟨rfl, rfl, hlevel⟩
      · exact ⟨rfl, rfl, hlevel⟩

theorem emudevMmioConfig_keeps (d : DeviceTables β) (x : Answers) (ioProxy : β)
    (addr size flags : Word) :
    (emudevMmioConfig d x ioProxy addr size flags).2.pciDevs = d.pciDevs ∧
      (emudevMmioConfig d x ioProxy addr size flags).2.pciIntx = d.pciIntx ∧
        (emudevMmioConfig d x ioProxy addr size flags).2.vm.level = d.vm.level := by
  unfold emudevMmioConfig
  split
  · exact ⟨rfl, rfl, rfl⟩
  · split
    · unfold mmioResFree
      split
      · exact ⟨rfl, rfl, rfl⟩
      · exact ⟨rfl, rfl, Vm.release_level _ _ _⟩
    · have hlevel := Vm.reserve_level d.vm x.vmReserveMemoryAt addr size
      unfold mmioResAssign
      split
      · rename_i vm hvm
        rw [hvm] at hlevel
        exact ⟨rfl, rfl, hlevel⟩
      · rename_i res vm hvm
        rw [hvm] at hlevel
        split
        · exact ⟨rfl, rfl, hlevel⟩
        · split
          · exact ⟨rfl, rfl, hlevel⟩
          · exact ⟨rfl, rfl, hlevel⟩

omit [DecidableEq β] in
/-- An operation on a line of an emulated device. -/
theorem emudevIrqOp_level (hx : ∀ b, x.vmSetIrqLevel b = 0) (d : DeviceTables β)
    (line : IrqLine β) (op : IrqOp) :
    (emudevIrqOp d x line op.code).1 = 0 ∧
      (emudevIrqOp d x line op.code).2.pciDevs = d.pciDevs ∧
      (emudevIrqOp d x line op.code).2.pciIntx = d.pciIntx ∧
      (emudevIrqOp d x line op.code).2.vm.level
        = Function.update d.vm.level line.irq op.level := by
  have hchange : ∀ (d : DeviceTables β) (b : Bool), (irqLineChange d x line b).1 = 0 ∧
      (irqLineChange d x line b).2.vm.level = Function.update d.vm.level line.irq b := by
    intro d b
    refine ⟨?_, Vm.setIrqLevel_level d.vm line.irq (hx b)⟩
    show (d.vm.setIrqLevel x.vmSetIrqLevel line.irq b).1 = 0
    rw [Vm.setIrqLevel_fst, hx]
  cases op with
  | clr => exact ⟨(hchange d false).1, rfl, rfl, (hchange d false).2⟩
  | set => exact ⟨(hchange d true).1, rfl, rfl, (hchange d true).2⟩
  | pulse =>
      obtain ⟨hok, hhigh⟩ := hchange d true
      obtain ⟨hok', hlow⟩ := hchange (irqLineChange d x line true).2 false
      have hpulse : irqLinePulse (vmSetIrqLevel x) line d
          = irqLineChange (irqLineChange d x line true).2 x line false := by
        rw [irqLinePulse_eq]
        simp only [hok, ne_eq, not_true_eq_false, if_false]
      have hop : emudevIrqOp d x line IrqOp.pulse.code
          = irqLineChange (irqLineChange d x line true).2 x line false := hpulse
      rw [hop, hlow, hhigh, Function.update_idem]
      exact ⟨hok', rfl, rfl, rfl⟩

/-- An interrupt of an emulated device. -/
theorem effect_emudevIrqSet (hx : ∀ b, x.vmSetIrqLevel b = 0) (d : DeviceTables β)
    (irq : BitVec 32) (op : IrqOp) :
    Effect x ioProxy registers d
      (if (emudevIrqSet d x ioProxy irq op.code).1 = 0 then some (.number irq, op.level) else none)
      (emudevIrqSet d x ioProxy irq op.code).2 := by
  have hline : ∀ {d' : DeviceTables β} {line : IrqLine β},
      irqResFind d' ioProxy irq = some line → line.irq = irq := by
    intro d' line hfind
    have hkey := List.find?_some hfind
    simp only [Bool.decide_and, Bool.and_eq_true, decide_eq_true_eq] at hkey
    exact hkey.1
  have hop : ∀ (d' : DeviceTables β) (line : IrqLine β), line.irq = irq →
      d'.pciDevs = d.pciDevs → d'.pciIntx = d.pciIntx → d'.vm.level = d.vm.level →
      Effect x ioProxy registers d
        (if (emudevIrqOp d' x line op.code).1 = 0 then some (.number irq, op.level) else none)
        (emudevIrqOp d' x line op.code).2 := by
    intro d' line hirq hdevs hintx hlevel
    obtain ⟨hok, hdevs', hintx', hlevel'⟩ := emudevIrqOp_level hx d' line op
    rw [if_pos hok]
    refine .number irq op.level (hdevs'.trans hdevs) (hintx'.trans hintx) ?_
    rw [hlevel', hlevel, hirq]
  have hquiet : ∀ d' : DeviceTables β, d'.pciDevs = d.pciDevs → d'.pciIntx = d.pciIntx →
      d'.vm.level = d.vm.level →
      Effect x ioProxy registers d
        (if (-1 : ℤ) = 0 then some (.number irq, op.level) else none) d' :=
    fun d' hdevs hintx hlevel => .quiet hdevs hintx hlevel
  unfold emudevIrqSet
  split
  · exact hquiet d rfl rfl rfl
  · split
    · rename_i line hfind
      exact hop d line (hline hfind) rfl rfl rfl
    · obtain ⟨hdevs, hintx, hlevel⟩ := irqResAssign_keeps d x ioProxy irq
      simp only
      split
      · exact hquiet _ hdevs hintx hlevel
      · split
        · exact hquiet _ hdevs hintx hlevel
        · rename_i line hfind
          exact hop _ line (hline hfind) hdevs hintx hlevel

/-- An interrupt request. -/
theorem effect_irqRequest (v2m : Option (Gicv2m γ)) (hx : ∀ b, x.vmSetIrqLevel b = 0)
    (d : DeviceTables β) (irq : BitVec 32) (op : IrqOp) :
    Effect x ioProxy registers d
      (if (irqRequest v2m x ioProxy irq op d).1 = 0 then irqCommand v2m ioProxy irq op else none)
      (irqRequest v2m x ioProxy irq op d).2 := by
  unfold irqRequest irqCommand
  by_cases hmsi : isMsi v2m irq = true
  · obtain ⟨hok, hlevel⟩ := d.vm.pulse_level hx irq
    simp only [if_pos hmsi]
    cases op with
    | clr => exact .quiet rfl rfl rfl
    | set =>
        show Effect x ioProxy registers d
          (if (d.vm.pulse x.vmSetIrqLevel irq).1 = 0 then _ else _) _
        rw [if_pos hok]
        exact .number irq false rfl rfl hlevel
    | pulse =>
        show Effect x ioProxy registers d
          (if (d.vm.pulse x.vmSetIrqLevel irq).1 = 0 then _ else _) _
        rw [if_pos hok]
        exact .number irq false rfl rfl hlevel
  · simp only [if_neg hmsi]
    by_cases hpci : irqIsPci irq = true
    · simp only [if_pos hpci]
      exact .pci irq op hpci
    · simp only [if_neg hpci]
      exact effect_emudevIrqSet hx d irq op

/-- A request. -/
theorem effect_request (v2m : Option (Gicv2m γ)) (hx : ∀ b, x.vmSetIrqLevel b = 0)
    (d : DeviceTables β) {r : DeviceRequest}
    (hmay : ∀ pcidev, r = .createVpciDevice pcidev → registers) :
    Effect x ioProxy registers d
      (if (r.run v2m x ioProxy d).1 = 0 then r.command v2m ioProxy else none)
      (r.run v2m x ioProxy d).2 := by
  have hnone : ∀ p : Prop, [Decidable p] →
      (if p then (none : Option (Source β × Bool)) else none) = none :=
    fun p _ => ite_self none
  cases r with
  | startVm => exact .quiet rfl rfl rfl
  | createVpciDevice pcidev =>
      simp only [DeviceRequest.command, hnone]
      exact .register pcidev (hmay pcidev rfl)
  | mmioRegionConfig gpa size flags =>
      obtain ⟨hdevs, hintx, hlevel⟩ := emudevMmioConfig_keeps d x ioProxy gpa size flags
      simp only [DeviceRequest.command, hnone]
      exact .quiet hdevs hintx hlevel
  | setIrqline irq => exact effect_irqRequest v2m hx d (irq.setWidth 32) .set
  | clearIrqline irq => exact effect_irqRequest v2m hx d (irq.setWidth 32) .clr
  | pulseIrqline irq => exact effect_irqRequest v2m hx d (irq.setWidth 32) .pulse

theorem qemuOp_of_createVpciDevice {msg : RpcMsg} {pcidev : Word}
    (h : decodeRequest msg = some (.createVpciDevice pcidev)) :
    qemuOp (msg mr0) = qemuOpRegisterPciDev := by
  unfold decodeRequest at h
  by_contra hno
  rw [if_neg hno] at h
  split_ifs at h <;> cases h

/-- **What an event does.** -/
theorem effect_event {v2m : Option (Gicv2m γ)} (hready : FrameReady v2m)
    (hx : ∀ b, x.vmSetIrqLevel b = 0) (mmio : RpcmsgRc) (msg : RpcMsg) (d : DeviceTables β) :
    Effect x ioProxy (qemuOp (msg mr0) = qemuOpRegisterPciDev) d
      (if (processEvent v2m x mmio ioProxy msg d).1 = 0 then
        (decodeRequest msg).bind (DeviceRequest.command v2m ioProxy)
      else none)
      (processEvent v2m x mmio ioProxy msg d).2 := by
  cases hdecode : decodeRequest msg with
  | some r =>
      have heffect : Effect x ioProxy (qemuOp (msg mr0) = qemuOpRegisterPciDev) d _ _ :=
        effect_request v2m hx d fun pcidev hr =>
          qemuOp_of_createVpciDevice (hdecode.trans (congrArg some hr))
      have hret : (reported (r.run v2m x ioProxy d)).1 = 0 ↔ (r.run v2m x ioProxy d).1 = 0 := by
        unfold reported
        by_cases h : (r.run v2m x ioProxy d).1 = 0 <;> simp [h]
      rw [processEvent_decoded hready x mmio ioProxy hdecode d]
      simp only [Option.bind_some, hret]
      exact heffect
  | none =>
      rw [Option.bind_none, ite_self]
      by_cases hmmio : qemuOp (msg mr0) = qemuOpMmio
      · rw [processEvent_mmio v2m x mmio ioProxy hmmio d]
        exact .quiet rfl rfl rfl
      · obtain ⟨-, hsame | ⟨irq, -, hreg⟩⟩ :=
          processEvent_undecoded v2m x mmio ioProxy hmmio hdecode d
        · rw [hsame]
          exact .quiet rfl rfl rfl
        · obtain ⟨hdevs, hintx, hlevel⟩ := irqResAssign_keeps d x ioProxy irq
          rw [hreg]
          exact .quiet hdevs hintx hlevel

end Effect

end TiiSel4Vm.Devices
