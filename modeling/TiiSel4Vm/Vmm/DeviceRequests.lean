import TiiSel4Vm.Vmm.Gicv2m
import TiiSel4Vm.Vmm.PciIntx

/-!
# The requests of a backend

A backend calls the `device_rpc_req_*` functions.  Each sends four words as an event, and
`rpc_process` offers the event to one handler after the other.

* `DeviceRequest.words` — what the functions send;
* `DeviceRequest.run` — what the VMM does for a request, by the range of its interrupt;
* `accepted_events` — every event is a request and has that request's effect, or is the answer to a
  request of the VMM, which changes no table, or fails.
-/

namespace TiiSel4Vm.Devices

open TiiSel4Vm.RpcQueue
open TiiSel4Vm.Msi (Gicv2m InRange SetIrqLevel msiIrqSet v2mIrqValid v2mIrqValid_iff)

/-! ### The requests -/

/-- A call of a `device_rpc_req_*` function. -/
inductive DeviceRequest where
  | startVm
  | createVpciDevice (pcidev : Word)
  | mmioRegionConfig (gpa size flags : Word)
  | setIrqline (irq : Word)
  | clearIrqline (irq : Word)
  | pulseIrqline (irq : Word)

/-- The words that `device_event_tx` gives to `rpcmsg_event_tx`. -/
def deviceEventWords (op w0 w1 w2 w3 : Word) : RpcMsg :=
  eventMsg (bitFieldSet w0 rpcMr0Op op) w1 w2 w3

/-- The `device_rpc_req_*` functions. -/
def DeviceRequest.words : DeviceRequest → RpcMsg
  | .startVm => deviceEventWords qemuOpStartVm 0#64 0#64 0#64 0#64
  | .createVpciDevice pcidev => deviceEventWords qemuOpRegisterPciDev 0#64 pcidev 0#64 0#64
  | .mmioRegionConfig gpa size flags => deviceEventWords qemuOpMmioRegionConfig 0#64 gpa size flags
  | .setIrqline irq => deviceEventWords qemuOpSetIrq 0#64 irq (rpcIrqSet.setWidth 64) 0#64
  | .clearIrqline irq => deviceEventWords qemuOpSetIrq 0#64 irq (rpcIrqClr.setWidth 64) 0#64
  | .pulseIrqline irq => deviceEventWords qemuOpSetIrq 0#64 irq (rpcIrqPulse.setWidth 64) 0#64

/-! ### The handlers of a platform -/

namespace Vm

/-- The calls of `vm_set_irq_level` in turn. -/
def setLevels (vm : Vm) (x : SetIrqLevel) (levels : List (BitVec 32 × Bool)) : Vm :=
  levels.foldl (fun vm l => (vm.setIrqLevel (x l.1) l.1 l.2).2) vm

/-- A line is pulsed. -/
def pulse (vm : Vm) (x : Bool → ℤ) (irq : BitVec 32) : ℤ × Vm :=
  irqLinePulse (fun irq active vm => Vm.setIrqLevel vm x irq active) ⟨irq, ()⟩ vm

end Vm

section Platform

variable {β γ : Type} [DecidableEq β]

/-- `handle_msi`; a platform without a frame has the stub. -/
def platformMsi (v2m : Option (Gicv2m γ)) (x : Answers) (op : Word) (msg : RpcMsg) :
    RpcmsgRc × (Vm → Vm) :=
  match v2m with
  | none => (.none, id)
  | some s =>
      if op = qemuOpSetIrq then
        let r := msiIrqSet (fun _ => x.vmSetIrqLevel) s ((msg mr1).setWidth 32)
          ((msg mr2).setWidth 32) ⟨[], []⟩
        (r.1, fun vm => vm.setLevels (fun _ => x.vmSetIrqLevel) r.2.levels)
      else (.none, id)

/-- `rpc_process` on a platform. -/
def processEvent (v2m : Option (Gicv2m γ)) (x : Answers) (mmio : RpcmsgRc) (ioProxy : β)
    (msg : RpcMsg) (d : DeviceTables β) : ℤ × DeviceTables β :=
  rpcProcess x mmio (platformMsi v2m x (qemuOp (msg mr0)) msg) ioProxy msg d

/-! ### What a request means -/

/-- The platform injects the interrupt through its frame. -/
def isMsi (v2m : Option (Gicv2m γ)) (irq : BitVec 32) : Bool :=
  match v2m with
  | none => false
  | some s => v2mIrqValid s irq

/-- An interrupt operation of a request. -/
inductive IrqOp where
  | clr
  | set
  | pulse
  deriving DecidableEq

/-- The operation's number. -/
def IrqOp.code : IrqOp → BitVec 32
  | .clr => rpcIrqClr
  | .set => rpcIrqSet
  | .pulse => rpcIrqPulse

/-- A frame's interrupt is an edge: clearing it does nothing. -/
def msiRequest (x : Answers) (irq : BitVec 32) (op : IrqOp) (d : DeviceTables β) :
    ℤ × DeviceTables β :=
  match op with
  | .clr => (0, d)
  | _ =>
      let r := d.vm.pulse x.vmSetIrqLevel irq
      (r.1, { d with vm := r.2 })

/-- An interrupt request goes to the frame, to a PCI device of the backend or to one of its
emulated devices. -/
def irqRequest (v2m : Option (Gicv2m γ)) (x : Answers) (ioProxy : β) (irq : BitVec 32) (op : IrqOp)
    (d : DeviceTables β) : ℤ × DeviceTables β :=
  if isMsi v2m irq then msiRequest x irq op d
  else if irqIsPci irq then handlePciIntx d x ioProxy (pciDevfn (irq.setWidth 64) 0#64) op.code
  else emudevIrqSet d x ioProxy irq op.code

/-- What the VMM does for a request. -/
def DeviceRequest.run (v2m : Option (Gicv2m γ)) (x : Answers) (ioProxy : β) (d : DeviceTables β) :
    DeviceRequest → ℤ × DeviceTables β
  | .startVm => (0, { d with okToRun := Function.update d.okToRun ioProxy true })
  | .createVpciDevice pcidev => pcidevRegister d x ioProxy (pciDevfn pcidev 0#64)
  | .mmioRegionConfig gpa size flags => emudevMmioConfig d x ioProxy gpa size flags
  | .setIrqline irq => irqRequest v2m x ioProxy (irq.setWidth 32) .set d
  | .clearIrqline irq => irqRequest v2m x ioProxy (irq.setWidth 32) .clr d
  | .pulseIrqline irq => irqRequest v2m x ioProxy (irq.setWidth 32) .pulse d

/-- What `rpc_process` makes of a handler's error. -/
def reported (r : ℤ × DeviceTables β) : ℤ × DeviceTables β := (if r.1 = 0 then 0 else -1, r.2)

/-! ### Decoding -/

/-- The request that an event is, if it is one. -/
def decodeRequest (msg : RpcMsg) : Option DeviceRequest :=
  if qemuOp (msg mr0) = qemuOpStartVm then some .startVm
  else if qemuOp (msg mr0) = qemuOpRegisterPciDev then some (.createVpciDevice (msg mr1))
  else if qemuOp (msg mr0) = qemuOpMmioRegionConfig then
    some (.mmioRegionConfig (msg mr1) (msg mr2) (msg mr3))
  else if qemuOp (msg mr0) = qemuOpSetIrq then
    if (msg mr2).setWidth 32 = rpcIrqSet then some (.setIrqline (msg mr1))
    else if (msg mr2).setWidth 32 = rpcIrqClr then some (.clearIrqline (msg mr1))
    else if (msg mr2).setWidth 32 = rpcIrqPulse then some (.pulseIrqline (msg mr1))
    else none
  else none

/-- `PCI_DEVFN` uses the low five bits of a slot. -/
theorem pciDevfn_truncated (w : Word) :
    pciDevfn ((w.setWidth 32).setWidth 64) 0#64 = pciDevfn w 0#64 := by
  rw [pciDevfn_eq_iff, pciSlot_pciDevfn, pciSlot_pciDevfn]
  apply BitVec.eq_of_getLsbD_eq
  intro i hi
  have hwide : i < 64 := by omega
  simp only [BitVec.getLsbD_setWidth, BitVec.getLsbD_and]
  simp [hi, hwide]

/-! ### Message-signalled interrupts -/

/-- The lines of the platform's frame are those of its own range, as `v2m_init` leaves them. -/
def FrameReady (v2m : Option (Gicv2m γ)) : Prop :=
  ∀ s, v2m = some s → InRange s ∧ ∀ i < s.numIrq.toNat, ∀ irq : BitVec 32,
    s.irqBase.toNat + i = irq.toNat → (s.irq i).irq = irq

theorem frameReady_of_v2mInit {y : Msi.V2mInitAnswers} {cookie : γ} {s s' : Gicv2m γ} {vm vm' : Vm}
    (h : InRange s) (hinit : Msi.v2mInit y cookie s vm = (0, s', vm')) : FrameReady (some s') := by
  intro t ht
  cases ht
  have hs' := Msi.v2mInit_initialised h hinit
  refine ⟨hs'.range, ?_⟩
  intro i hi irq hirq
  rw [hs'.line i hi irq hirq]

/-- The calls that a pulse of a line makes, made on the VM. -/
theorem setLevels_irqLinePulse (vm : Vm) (x : SetIrqLevel) (line : IrqLine γ) (lines : List ℕ) :
    (irqLinePulse (Msi.vmSetIrqLevel x) line ⟨lines, []⟩).1
        = (vm.pulse (x line.irq) line.irq).1 ∧
      vm.setLevels x (irqLinePulse (Msi.vmSetIrqLevel x) line ⟨lines, []⟩).2.levels
        = (vm.pulse (x line.irq) line.irq).2 := by
  unfold Vm.pulse irqLinePulse Msi.vmSetIrqLevel
  simp only [Vm.setIrqLevel_fst]
  by_cases h : x line.irq true = 0
  · simp only [h, ne_eq, not_true_eq_false, if_false, Vm.setIrqLevel_fst]
    exact ⟨trivial, rfl⟩
  · simp only [h, ne_eq, not_false_eq_true, if_true, Vm.setIrqLevel_fst]
    exact ⟨trivial, rfl⟩

omit [DecidableEq β] in
/-- `handle_msi` on an interrupt of the frame. -/
theorem handleMsi_inside {v2m : Option (Gicv2m γ)} (hready : FrameReady v2m) (x : Answers)
    {msg : RpcMsg} (op : IrqOp) (hcode : (msg mr2).setWidth 32 = op.code)
    (hmsi : isMsi v2m ((msg mr1).setWidth 32) = true) (d : DeviceTables β) :
    handleMsi (platformMsi v2m x qemuOpSetIrq msg) d
      = handledUnless (msiRequest x ((msg mr1).setWidth 32) op d) := by
  cases v2m with
  | none => cases hmsi
  | some s =>
      have hvalid : v2mIrqValid s ((msg mr1).setWidth 32) = true := hmsi
      obtain ⟨hrange, hlines⟩ := hready s rfl
      have hin := (v2mIrqValid_iff hrange _).mp hvalid
      have hsub := Msi.sub_base_toNat hin.1
      have hline := hlines (((msg mr1).setWidth 32).toNat - s.irqBase.toNat) (by omega)
        ((msg mr1).setWidth 32) (by omega)
      obtain ⟨hret, hvm⟩ := setLevels_irqLinePulse d.vm (fun _ => x.vmSetIrqLevel)
        (s.irq (((msg mr1).setWidth 32).toNat - s.irqBase.toNat))
        [((msg mr1).setWidth 32).toNat - s.irqBase.toNat]
      rw [hline] at hret hvm
      have hinject : Msi.v2mInjectIrq (fun _ => x.vmSetIrqLevel) s ((msg mr1).setWidth 32) ⟨[], []⟩
          = irqLinePulse (Msi.vmSetIrqLevel fun _ => x.vmSetIrqLevel)
            (s.irq (((msg mr1).setWidth 32).toNat - s.irqBase.toNat))
            ⟨[((msg mr1).setWidth 32).toNat - s.irqBase.toNat], []⟩ := by
        rw [Msi.v2mInjectIrq, hvalid, hsub]
        rfl
      unfold platformMsi msiIrqSet
      simp only [if_true, hvalid, Bool.not_true, Bool.false_eq_true, if_false, hcode, hinject, hret]
      cases op with
      | clr => rfl
      | set =>
          have hop : IrqOp.set.code = rpcIrqSet ∨ IrqOp.set.code = rpcIrqPulse := Or.inl rfl
          simp only [hop, if_true, handleMsi, hvm]
          rfl
      | pulse =>
          have hop : IrqOp.pulse.code = rpcIrqSet ∨ IrqOp.pulse.code = rpcIrqPulse := Or.inr rfl
          simp only [hop, if_true, handleMsi, hvm]
          rfl

/-- It leaves the other interrupts to the next handler. -/
theorem platformMsi_outside {v2m : Option (Gicv2m γ)} (x : Answers) {op : Word} {msg : RpcMsg}
    (h : op ≠ qemuOpSetIrq ∨ isMsi v2m ((msg mr1).setWidth 32) = false) :
    platformMsi v2m x op msg = (.none, id) := by
  cases v2m with
  | none => rfl
  | some s =>
      unfold platformMsi
      simp only
      by_cases hop : op = qemuOpSetIrq
      · have hout : v2mIrqValid s ((msg mr1).setWidth 32) = false := by
          rcases h with hne | hout
          · exact absurd hop hne
          · exact hout
        rw [if_pos hop]
        simp only [msiIrqSet, hout, Bool.not_false, if_true]
        rfl
      · rw [if_neg hop]

/-! ### The handlers in turn -/

omit [DecidableEq β] in
theorem runCallbacks_pass {cb : Callback β} {d : DeviceTables β} (h : cb d = (.none, d))
    (cbs : List (Callback β)) : runCallbacks (cb :: cbs) d = runCallbacks cbs d := by
  simp only [runCallbacks, h, if_true]

omit [DecidableEq β] in
theorem handledUnless_ne_none (r : ℤ × DeviceTables β) : (handledUnless r).1 ≠ .none := by
  unfold handledUnless
  by_cases hr : r.1 = 0
  · simp [hr]
  · simp [hr]

omit [DecidableEq β] in
theorem runCallbacks_stop {cb : Callback β} {d : DeviceTables β} {r : ℤ × DeviceTables β}
    (h : cb d = handledUnless r) (cbs : List (Callback β)) :
    runCallbacks (cb :: cbs) d = handledUnless r := by
  simp only [runCallbacks, h, if_neg (handledUnless_ne_none r)]

omit [DecidableEq β] in
theorem reported_handledUnless (r : ℤ × DeviceTables β) :
    ((if (handledUnless r).1 = .handled then 0 else -1 : ℤ), (handledUnless r).2) = reported r := by
  unfold handledUnless reported
  by_cases h : r.1 = 0
  · simp [h]
  · simp [h]

/-- An event of an operation other than `QEMU_OP_SET_IRQ` passes `handle_msi`. -/
theorem processEvent_eq {v2m : Option (Gicv2m γ)} {x : Answers} {mmio : RpcmsgRc} {ioProxy : β}
    {msg : RpcMsg} {d : DeviceTables β} {r : ℤ × DeviceTables β}
    (h : runCallbacks [handleMmioEvent mmio (qemuOp (msg mr0)),
        handleMsi (platformMsi v2m x (qemuOp (msg mr0)) msg),
        handlePci x ioProxy (qemuOp (msg mr0)) msg, handleEmudev x ioProxy (qemuOp (msg mr0)) msg,
        handleControl ioProxy (qemuOp (msg mr0))] d = handledUnless r) :
    processEvent v2m x mmio ioProxy msg d = reported r := by
  unfold processEvent rpcProcess
  simp only [h]
  exact reported_handledUnless r

/-- An interrupt event is the request with its number and operation. -/
theorem processEvent_setIrq {v2m : Option (Gicv2m γ)} (hready : FrameReady v2m) (x : Answers)
    (mmio : RpcmsgRc) (ioProxy : β) {msg : RpcMsg} (hop : qemuOp (msg mr0) = qemuOpSetIrq)
    (op : IrqOp) (hcode : (msg mr2).setWidth 32 = op.code) (d : DeviceTables β) :
    processEvent v2m x mmio ioProxy msg d
      = reported (irqRequest v2m x ioProxy ((msg mr1).setWidth 32) op d) := by
  apply processEvent_eq
  rw [hop]
  have hmmio : handleMmioEvent mmio qemuOpSetIrq d = (.none, d) := rfl
  rw [runCallbacks_pass hmmio]
  unfold irqRequest
  by_cases hmsi : isMsi v2m ((msg mr1).setWidth 32) = true
  · rw [if_pos hmsi]
    exact runCallbacks_stop (handleMsi_inside hready x op hcode hmsi d) _
  · have hout := Bool.eq_false_iff.mpr hmsi
    have hpass : handleMsi (platformMsi v2m x qemuOpSetIrq msg) d = (.none, d) := by
      rw [platformMsi_outside x (Or.inr hout)]
      rfl
    rw [if_neg hmsi, runCallbacks_pass hpass]
    by_cases hpci : irqIsPci ((msg mr1).setWidth 32) = true
    · have hhandle : handlePci x ioProxy qemuOpSetIrq msg d
          = handledUnless (handlePciIntx d x ioProxy
            (pciDevfn (((msg mr1).setWidth 32).setWidth 64) 0#64) op.code) := by
        rw [pciDevfn_truncated, ← hcode]
        unfold handlePci
        rw [if_pos rfl, hpci]
        rfl
      rw [if_pos hpci]
      exact runCallbacks_stop hhandle _
    · have hother := Bool.eq_false_iff.mpr hpci
      have hpass' : handlePci x ioProxy qemuOpSetIrq msg d = (.none, d) := by
        unfold handlePci
        rw [if_pos rfl, hother]
        rfl
      have hhandle : handleEmudev x ioProxy qemuOpSetIrq msg d
          = handledUnless (emudevIrqSet d x ioProxy ((msg mr1).setWidth 32) op.code) := by
        rw [← hcode]
        rfl
      rw [if_neg hpci, runCallbacks_pass hpass']
      exact runCallbacks_stop hhandle _

omit [DecidableEq β] in
/-- `handle_msi` works on one operation. -/
theorem handleMsi_pass (v2m : Option (Gicv2m γ)) (x : Answers) {op : Word}
    (hop : op ≠ qemuOpSetIrq) (msg : RpcMsg) (d : DeviceTables β) :
    handleMsi (platformMsi v2m x op msg) d = (.none, d) := by
  rw [platformMsi_outside x (Or.inl hop)]
  rfl

theorem processEvent_registerPciDev (v2m : Option (Gicv2m γ)) (x : Answers) (mmio : RpcmsgRc)
    (ioProxy : β) {msg : RpcMsg} (hop : qemuOp (msg mr0) = qemuOpRegisterPciDev)
    (d : DeviceTables β) :
    processEvent v2m x mmio ioProxy msg d
      = reported (pcidevRegister d x ioProxy (pciDevfn (msg mr1) 0#64)) := by
  apply processEvent_eq
  rw [hop]
  have hmmio : handleMmioEvent mmio qemuOpRegisterPciDev d = (.none, d) := rfl
  have hmsi := handleMsi_pass v2m x (by decide : qemuOpRegisterPciDev ≠ qemuOpSetIrq) msg d
  rw [runCallbacks_pass hmmio, runCallbacks_pass hmsi]
  exact runCallbacks_stop rfl _

theorem processEvent_mmioRegionConfig (v2m : Option (Gicv2m γ)) (x : Answers) (mmio : RpcmsgRc)
    (ioProxy : β) {msg : RpcMsg} (hop : qemuOp (msg mr0) = qemuOpMmioRegionConfig)
    (d : DeviceTables β) :
    processEvent v2m x mmio ioProxy msg d
      = reported (emudevMmioConfig d x ioProxy (msg mr1) (msg mr2) (msg mr3)) := by
  apply processEvent_eq
  rw [hop]
  have hmmio : handleMmioEvent mmio qemuOpMmioRegionConfig d = (.none, d) := rfl
  have hmsi := handleMsi_pass v2m x (by decide : qemuOpMmioRegionConfig ≠ qemuOpSetIrq)
    msg d
  have hpci : handlePci x ioProxy qemuOpMmioRegionConfig msg d = (.none, d) := rfl
  rw [runCallbacks_pass hmmio, runCallbacks_pass hmsi, runCallbacks_pass hpci]
  exact runCallbacks_stop rfl _

theorem processEvent_startVm (v2m : Option (Gicv2m γ)) (x : Answers) (mmio : RpcmsgRc)
    (ioProxy : β) {msg : RpcMsg} (hop : qemuOp (msg mr0) = qemuOpStartVm) (d : DeviceTables β) :
    processEvent v2m x mmio ioProxy msg d
      = reported (0, { d with okToRun := Function.update d.okToRun ioProxy true }) := by
  apply processEvent_eq
  rw [hop]
  have hmmio : handleMmioEvent mmio qemuOpStartVm d = (.none, d) := rfl
  have hmsi := handleMsi_pass v2m x (by decide : qemuOpStartVm ≠ qemuOpSetIrq) msg d
  have hpci : handlePci x ioProxy qemuOpStartVm msg d = (.none, d) := rfl
  have hemudev : handleEmudev x ioProxy qemuOpStartVm msg d = (.none, d) := rfl
  have hcontrol : handleControl ioProxy qemuOpStartVm d
      = handledUnless (0, { d with okToRun := Function.update d.okToRun ioProxy true }) := rfl
  rw [runCallbacks_pass hmmio, runCallbacks_pass hmsi, runCallbacks_pass hpci,
    runCallbacks_pass hemudev]
  exact runCallbacks_stop hcontrol _

/-- **Decoding.**  An event that is a request has the effect of the request. -/
theorem processEvent_decoded {v2m : Option (Gicv2m γ)} (hready : FrameReady v2m) (x : Answers)
    (mmio : RpcmsgRc) (ioProxy : β) {msg : RpcMsg} {r : DeviceRequest}
    (h : decodeRequest msg = some r) (d : DeviceTables β) :
    processEvent v2m x mmio ioProxy msg d = reported (r.run v2m x ioProxy d) := by
  unfold decodeRequest at h
  by_cases hstart : qemuOp (msg mr0) = qemuOpStartVm
  · rw [if_pos hstart] at h
    cases h
    exact processEvent_startVm v2m x mmio ioProxy hstart d
  rw [if_neg hstart] at h
  by_cases hpci : qemuOp (msg mr0) = qemuOpRegisterPciDev
  · rw [if_pos hpci] at h
    cases h
    exact processEvent_registerPciDev v2m x mmio ioProxy hpci d
  rw [if_neg hpci] at h
  by_cases hmmio : qemuOp (msg mr0) = qemuOpMmioRegionConfig
  · rw [if_pos hmmio] at h
    cases h
    exact processEvent_mmioRegionConfig v2m x mmio ioProxy hmmio d
  rw [if_neg hmmio] at h
  by_cases hirq : qemuOp (msg mr0) = qemuOpSetIrq
  · rw [if_pos hirq] at h
    -- the operation is one of the three, or the event is not decoded
    by_cases hset : (msg mr2).setWidth 32 = rpcIrqSet
    · rw [if_pos hset] at h
      cases h
      exact processEvent_setIrq hready x mmio ioProxy hirq .set hset d
    rw [if_neg hset] at h
    by_cases hclr : (msg mr2).setWidth 32 = rpcIrqClr
    · rw [if_pos hclr] at h
      cases h
      exact processEvent_setIrq hready x mmio ioProxy hirq .clr hclr d
    rw [if_neg hclr] at h
    by_cases hpulse : (msg mr2).setWidth 32 = rpcIrqPulse
    · rw [if_pos hpulse] at h
      cases h
      exact processEvent_setIrq hready x mmio ioProxy hirq .pulse hpulse d
    · rw [if_neg hpulse] at h
      cases h
  · rw [if_neg hirq] at h
    cases h

/-! ### Events that are no requests -/

/-- An event without effect on the tables, except that the line it names may be registered. -/
def Registers (x : Answers) (ioProxy : β) (d d' : DeviceTables β) : Prop :=
  d' = d ∨ ∃ irq, irqIsEmulatedDevice irq = true ∧ d' = (irqResAssign d x ioProxy irq).2

/-- What the operations are not. -/
def UnknownIrqOp (op : BitVec 32) : Prop := op ≠ rpcIrqSet ∧ op ≠ rpcIrqClr ∧ op ≠ rpcIrqPulse

/-- The line is registered before the operation is looked at. -/
theorem emudevIrqSet_unknown (d : DeviceTables β) (x : Answers) (ioProxy : β) (irq : BitVec 32)
    {op : BitVec 32} (hop : UnknownIrqOp op) :
    (emudevIrqSet d x ioProxy irq op).1 = -1 ∧
      Registers x ioProxy d (emudevIrqSet d x ioProxy irq op).2 := by
  have hnone : ∀ (d' : DeviceTables β) (line : IrqLine β), emudevIrqOp d' x line op = (-1, d') := by
    intro d' line
    rw [emudevIrqOp, if_neg hop.1, if_neg hop.2.1, if_neg hop.2.2]
  unfold emudevIrqSet
  cases hdev : irqIsEmulatedDevice irq with
  | false => exact ⟨rfl, Or.inl rfl⟩
  | true =>
      cases hfind : irqResFind d ioProxy irq with
      | some line =>
          simp only [Bool.not_true, Bool.false_eq_true, if_false, hnone]
          exact ⟨trivial, Or.inl rfl⟩
      | none =>
          have hreg : Registers x ioProxy d (irqResAssign d x ioProxy irq).2 :=
            Or.inr ⟨irq, hdev, rfl⟩
          simp only [Bool.not_true, Bool.false_eq_true, if_false, hnone]
          by_cases herr : (irqResAssign d x ioProxy irq).1 = 0
          · rw [if_neg (not_not_intro herr)]
            split
            · exact ⟨rfl, hreg⟩
            · exact ⟨rfl, hreg⟩
          · rw [if_pos herr]
            exact ⟨rfl, hreg⟩

theorem processEvent_unknownIrqOp (v2m : Option (Gicv2m γ)) (x : Answers) (mmio : RpcmsgRc)
    (ioProxy : β) {msg : RpcMsg} (hop : qemuOp (msg mr0) = qemuOpSetIrq)
    (hcode : UnknownIrqOp ((msg mr2).setWidth 32)) (d : DeviceTables β) :
    (processEvent v2m x mmio ioProxy msg d).1 = -1 ∧
      Registers x ioProxy d (processEvent v2m x mmio ioProxy msg d).2 := by
  have hfails : ∀ r : ℤ × DeviceTables β, r.1 = -1 → (reported r).1 = -1 := by
    intro r hr
    simp [reported, hr]
  have hmmio : handleMmioEvent mmio qemuOpSetIrq d = (.none, d) := rfl
  by_cases hmsi : isMsi v2m ((msg mr1).setWidth 32) = true
  · cases v2m with
    | none => cases hmsi
    | some s =>
        have hvalid : v2mIrqValid s ((msg mr1).setWidth 32) = true := hmsi
        have hedge : ¬ ((msg mr2).setWidth 32 = rpcIrqSet ∨ (msg mr2).setWidth 32 = rpcIrqPulse) :=
          fun h => h.elim hcode.1 hcode.2.2
        have hhandle : handleMsi (platformMsi (some s) x qemuOpSetIrq msg) d
            = handledUnless (-1, d) := by
          unfold platformMsi msiIrqSet
          simp only [if_true, hvalid, Bool.not_true, Bool.false_eq_true, if_false, if_neg hedge,
            if_neg hcode.2.1]
          rfl
        have hproc : processEvent (some s) x mmio ioProxy msg d = reported (-1, d) := by
          apply processEvent_eq
          rw [hop, runCallbacks_pass hmmio]
          exact runCallbacks_stop hhandle _
        rw [hproc]
        exact ⟨rfl, Or.inl rfl⟩
  · have hpass : handleMsi (platformMsi v2m x qemuOpSetIrq msg) d = (.none, d) := by
      rw [platformMsi_outside x (Or.inr (Bool.eq_false_iff.mpr hmsi))]
      rfl
    by_cases hpci : irqIsPci ((msg mr1).setWidth 32) = true
    · have hhandle : handlePci x ioProxy qemuOpSetIrq msg d = handledUnless (-1, d) := by
        unfold handlePci handlePciIntx
        rw [if_pos rfl, hpci, if_neg hcode.1, if_neg hcode.2.1, if_neg hcode.2.2]
        rfl
      have hproc : processEvent v2m x mmio ioProxy msg d = reported (-1, d) := by
        apply processEvent_eq
        rw [hop, runCallbacks_pass hmmio, runCallbacks_pass hpass]
        exact runCallbacks_stop hhandle _
      rw [hproc]
      exact ⟨rfl, Or.inl rfl⟩
    · have hpass' : handlePci x ioProxy qemuOpSetIrq msg d = (.none, d) := by
        unfold handlePci
        rw [if_pos rfl, Bool.eq_false_iff.mpr hpci]
        rfl
      have hproc : processEvent v2m x mmio ioProxy msg d
          = reported (emudevIrqSet d x ioProxy ((msg mr1).setWidth 32)
            ((msg mr2).setWidth 32)) := by
        apply processEvent_eq
        rw [hop, runCallbacks_pass hmmio, runCallbacks_pass hpass, runCallbacks_pass hpass']
        exact runCallbacks_stop rfl _
      have hset := emudevIrqSet_unknown d x ioProxy ((msg mr1).setWidth 32) hcode
      rw [hproc]
      exact ⟨hfails _ hset.1, hset.2⟩

/-- The answer to a request of the VMM is for `handle_mmio` alone. -/
theorem processEvent_mmio (v2m : Option (Gicv2m γ)) (x : Answers) (mmio : RpcmsgRc) (ioProxy : β)
    {msg : RpcMsg} (hop : qemuOp (msg mr0) = qemuOpMmio) (d : DeviceTables β) :
    processEvent v2m x mmio ioProxy msg d = (if mmio = .handled then 0 else -1, d) := by
  have hmsi := handleMsi_pass v2m x (by decide : qemuOpMmio ≠ qemuOpSetIrq) msg d
  have hrest : runCallbacks [handleMsi (platformMsi v2m x qemuOpMmio msg),
      handlePci x ioProxy qemuOpMmio msg, handleEmudev x ioProxy qemuOpMmio msg,
      handleControl ioProxy qemuOpMmio] d = (.none, d) := by
    rw [runCallbacks_pass hmsi]
    rfl
  unfold processEvent rpcProcess
  simp only [hop]
  by_cases hmmio : mmio = .none
  · rw [runCallbacks_pass (by rw [hmmio]; rfl), hrest, hmmio]
  · have hstop : (handleMmioEvent (β := β) mmio qemuOpMmio d).1 ≠ .none := hmmio
    rw [runCallbacks, if_neg hstop]
    rfl

/-- An event of an operation that no handler knows. -/
theorem processEvent_unknownOp (v2m : Option (Gicv2m γ)) (x : Answers) (mmio : RpcmsgRc)
    (ioProxy : β) {msg : RpcMsg} (hmmio : qemuOp (msg mr0) ≠ qemuOpMmio)
    (hirq : qemuOp (msg mr0) ≠ qemuOpSetIrq) (hpci : qemuOp (msg mr0) ≠ qemuOpRegisterPciDev)
    (hregion : qemuOp (msg mr0) ≠ qemuOpMmioRegionConfig)
    (hstart : qemuOp (msg mr0) ≠ qemuOpStartVm) (d : DeviceTables β) :
    processEvent v2m x mmio ioProxy msg d = (-1, d) := by
  have hone : handleMmioEvent mmio (qemuOp (msg mr0)) d = (.none, d) := by
    rw [handleMmioEvent, if_pos hmmio]
  have htwo := handleMsi_pass v2m x hirq msg d
  have hthree : handlePci x ioProxy (qemuOp (msg mr0)) msg d = (.none, d) := by
    rw [handlePci, if_neg hirq, if_neg hpci]
  have hfour : handleEmudev x ioProxy (qemuOp (msg mr0)) msg d = (.none, d) := by
    rw [handleEmudev, if_neg hregion, if_neg hirq]
  have hfive : handleControl ioProxy (qemuOp (msg mr0)) d = (.none, d) := by
    rw [handleControl, if_neg hstart]
  unfold processEvent rpcProcess
  simp only [runCallbacks_pass hone, runCallbacks_pass htwo, runCallbacks_pass hthree,
    runCallbacks_pass hfour, runCallbacks_pass hfive]
  rfl

/-- **Other events.**  An event that is not decoded fails, and changes no more than a
registration. -/
theorem processEvent_undecoded (v2m : Option (Gicv2m γ)) (x : Answers) (mmio : RpcmsgRc)
    (ioProxy : β) {msg : RpcMsg} (hmmio : qemuOp (msg mr0) ≠ qemuOpMmio)
    (h : decodeRequest msg = none) (d : DeviceTables β) :
    (processEvent v2m x mmio ioProxy msg d).1 = -1 ∧
      Registers x ioProxy d (processEvent v2m x mmio ioProxy msg d).2 := by
  unfold decodeRequest at h
  by_cases hstart : qemuOp (msg mr0) = qemuOpStartVm
  · rw [if_pos hstart] at h
    cases h
  rw [if_neg hstart] at h
  by_cases hpci : qemuOp (msg mr0) = qemuOpRegisterPciDev
  · rw [if_pos hpci] at h
    cases h
  rw [if_neg hpci] at h
  by_cases hregion : qemuOp (msg mr0) = qemuOpMmioRegionConfig
  · rw [if_pos hregion] at h
    cases h
  rw [if_neg hregion] at h
  by_cases hirq : qemuOp (msg mr0) = qemuOpSetIrq
  · rw [if_pos hirq] at h
    refine processEvent_unknownIrqOp v2m x mmio ioProxy hirq ⟨?_, ?_, ?_⟩ d
    · intro hset
      rw [if_pos hset] at h
      cases h
    · intro hclr
      rw [hclr] at h
      cases h
    · intro hpulse
      rw [hpulse] at h
      cases h
  · rw [processEvent_unknownOp v2m x mmio ioProxy hmmio hirq hpci hregion hstart d]
    exact ⟨rfl, Or.inl rfl⟩

end Platform

/-- The frame of the QEMU virtual platform after its initialisation. -/
def virtFrame : Gicv2m Unit :=
  (Msi.v2mInit ⟨fun _ => 0, true⟩ () Msi.virtV2m ⟨[], 0, [], fun _ => false⟩).2.1

theorem frameReady_virtFrame : FrameReady (some virtFrame) := by
  have hrange : InRange Msi.virtV2m := ⟨by decide, by decide⟩
  have hzero : (Msi.v2mInit ⟨fun _ => 0, true⟩ () Msi.virtV2m ⟨[], 0, [], fun _ => false⟩).1
      = 0 := by
    decide
  exact frameReady_of_v2mInit hrange (Prod.ext hzero rfl)

/-- No device is registered. -/
def noDevices : DeviceTables Bool where
  vm := ⟨[], 0, [], fun _ => false⟩
  pciIntx i := ⟨BitVec.ofNat 32 i, 0#64⟩
  pciDevs := []
  irqs := []
  mmioReservations := []
  okToRun _ := false

end TiiSel4Vm.Devices
