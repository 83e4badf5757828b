import TiiSel4Vm.Lib.Unwinding
import TiiSel4Vm.Vmm.DeviceRequests
import TiiSel4Vm.Vmm.EmudevErrors

/-!
# Backends do not see each other

The device tables are shared, and an event comes from one backend.  Handlers look for the entries of
that backend only, and add or remove only these.  What the backends share is the room on the PCI bus
and the levels of the INTx lines.

* `BackendView` — the entries of one backend;
* `Isolated` — what a handler of a backend's event satisfies;
* `backend_isolation` — the entries and results of a backend do not depend on the other backends.
-/

namespace TiiSel4Vm.Devices

open TiiSel4Vm.RpcQueue TiiSel4Vm.Unwinding
open TiiSel4Vm.Msi (Gicv2m)

/-! ### What a backend has -/

/-- The entries of one backend.  Which handle the VM gave to a region is left out. -/
@[ext] structure BackendView (β : Type) where
  devices : List (Pcidev β)
  irqs : List (IrqLine β)
  regions : List (Word × Word)
  okToRun : Bool

section Views

variable {β γ : Type} [DecidableEq β]

/-- Address and size of the regions of one backend. -/
def regionsOf (l : List (MmioReservation β)) (ioProxy : β) : List (Word × Word) :=
  (l.filter fun m => m.ioProxy = ioProxy).map fun m => (m.addr, m.size)

/-- The tables as one backend has them. -/
def DeviceTables.view (d : DeviceTables β) (ioProxy : β) : BackendView β where
  devices := d.pciDevs.filter fun p => p.ioProxy = ioProxy
  irqs := d.irqs.filter fun l => l.cookie = ioProxy
  regions := regionsOf d.mmioReservations ioProxy
  okToRun := d.okToRun ioProxy

/-- The PCI bus is not full. -/
def HasRoom (d : DeviceTables β) : Prop := d.pciDevs.length < pciNumAvailDevices

/-- The backend has the same in both tables, and the second has no more devices. -/
def SameFor (ioProxy : β) (s t : DeviceTables β) : Prop :=
  s.view ioProxy = t.view ioProxy ∧ t.pciDevs.length ≤ s.pciDevs.length

/-- What is done for an event of a backend: the other backends keep their entries, and the result
and the backend's own entries depend on these alone.  With `room` it is done while the PCI bus is
not full. -/
structure Isolated (x : Answers) (ioProxy : β) (room : Prop) {ρ : Type}
    (f : DeviceTables β → ρ × DeviceTables β) : Prop where
  others : ∀ io, io ≠ ioProxy → ∀ d, (f d).2.view io = d.view io
  grows : ∀ d, d.pciDevs.length ≤ (f d).2.pciDevs.length
  own : (∀ b, x.vmSetIrqLevel b = 0) → ∀ s t, (room → HasRoom s) → SameFor ioProxy s t →
    (f s).1 = (f t).1 ∧ SameFor ioProxy (f s).2 (f t).2

variable {room : Prop}

/-- Only the VM and the sources of the INTx lines change. -/
def KeepsTables (d d' : DeviceTables β) : Prop :=
  ∃ vm intx, d' = { d with vm := vm, pciIntx := intx }

theorem irqResFind_view (d : DeviceTables β) (ioProxy : β) (irq : BitVec 32) :
    irqResFind d ioProxy irq = (d.view ioProxy).irqs.find? fun l => l.irq = irq := by
  unfold irqResFind DeviceTables.view
  rw [List.find?_filter]
  congr 1
  funext l
  rw [Bool.decide_and, Bool.and_comm]
  simp only [Bool.decide_and, Bool.decide_eq_true]

theorem pcidevFind_view (d : DeviceTables β) (ioProxy : β) (backendDevfn : BitVec 32) :
    pcidevFind d ioProxy backendDevfn
      = (d.view ioProxy).devices.find? fun p => p.backendDevfn = backendDevfn := by
  unfold pcidevFind DeviceTables.view
  rw [List.find?_filter]
  congr 1
  funext p
  simp only [Bool.decide_and, Bool.decide_eq_true]

omit [DecidableEq β] in
theorem KeepsTables.refl (d : DeviceTables β) : KeepsTables d d := ⟨d.vm, d.pciIntx, rfl⟩

omit [DecidableEq β] in
theorem KeepsTables.trans {d d' d'' : DeviceTables β} (h : KeepsTables d d')
    (h' : KeepsTables d' d'') : KeepsTables d d'' := by
  obtain ⟨vm, intx, rfl⟩ := h
  obtain ⟨vm', intx', rfl⟩ := h'
  exact ⟨vm', intx', rfl⟩

theorem KeepsTables.view {d d' : DeviceTables β} (h : KeepsTables d d') (ioProxy : β) :
    d'.view ioProxy = d.view ioProxy := by
  obtain ⟨vm, intx, rfl⟩ := h
  rfl

omit [DecidableEq β] in
theorem KeepsTables.length {d d' : DeviceTables β} (h : KeepsTables d d') :
    d'.pciDevs.length = d.pciDevs.length := by
  obtain ⟨vm, intx, rfl⟩ := h
  rfl

theorem SameFor.keep {ioProxy : β} {s t s' t' : DeviceTables β} (h : SameFor ioProxy s t)
    (hs : KeepsTables s s') (ht : KeepsTables t t') : SameFor ioProxy s' t' := by
  constructor
  · rw [hs.view, ht.view, h.1]
  · rw [hs.length, ht.length]
    exact h.2

theorem Isolated.weaken {x : Answers} {ioProxy : β} {room' : Prop} {ρ : Type}
    {f : DeviceTables β → ρ × DeviceTables β} (h : Isolated x ioProxy room f)
    (himp : room → room') : Isolated x ioProxy room' f where
  others := h.others
  grows := h.grows
  own hx s t hroom hsame := h.own hx s t (fun hr => hroom (himp hr)) hsame

/-- A handler that only works on the VM and the lines. -/
theorem Isolated.of_keeps {x : Answers} {ioProxy : β} {ρ : Type}
    {f : DeviceTables β → ρ × DeviceTables β} (hkeeps : ∀ d, KeepsTables d (f d).2)
    (hresult : (∀ b, x.vmSetIrqLevel b = 0) → ∀ s t, SameFor ioProxy s t → (f s).1 = (f t).1) :
    Isolated x ioProxy room f where
  others io _ d := (hkeeps d).view io
  grows d := le_of_eq (hkeeps d).length.symm
  own hx s t _ hsame := ⟨hresult hx s t hsame, hsame.keep (hkeeps s) (hkeeps t)⟩

/-! ### Interrupts -/

omit [DecidableEq β] in
theorem emudevIrqOp_keepsTables (d : DeviceTables β) (x : Answers) (line : IrqLine β)
    (op : BitVec 32) : KeepsTables d (emudevIrqOp d x line op).2 := by
  have hchange : ∀ (d : DeviceTables β) (active : Bool),
      KeepsTables d (irqLineChange d x line active).2 :=
    fun d active => ⟨(d.vm.setIrqLevel x.vmSetIrqLevel line.irq active).2, d.pciIntx, rfl⟩
  unfold emudevIrqOp
  by_cases hset : op = rpcIrqSet
  · rw [if_pos hset]
    exact hchange d true
  rw [if_neg hset]
  by_cases hclr : op = rpcIrqClr
  · rw [if_pos hclr]
    exact hchange d false
  rw [if_neg hclr]
  by_cases hpulse : op = rpcIrqPulse
  · rw [if_pos hpulse]
    rw [irqLinePulse_eq]
    by_cases hfail : (irqLineChange d x line true).1 = 0
    · simp only [hfail, ne_eq, not_true_eq_false, if_false]
      exact (hchange d true).trans (hchange _ false)
    · simp only [hfail, ne_eq, not_false_eq_true, if_true]
      exact hchange d true
  · rw [if_neg hpulse]
    exact KeepsTables.refl d

omit [DecidableEq β] in
/-- The result of an operation on a line is the VM's. -/
theorem emudevIrqOp_result (s t : DeviceTables β) (x : Answers) (line : IrqLine β)
    (op : BitVec 32) : (emudevIrqOp s x line op).1 = (emudevIrqOp t x line op).1 := by
  have hchange : ∀ (d : DeviceTables β) (active : Bool),
      (irqLineChange d x line active).1 = x.vmSetIrqLevel active :=
    fun d active => Vm.setIrqLevel_fst d.vm x.vmSetIrqLevel line.irq active
  unfold emudevIrqOp
  simp only [irqLinePulse_eq]
  simp only [apply_ite Prod.fst, hchange]

theorem view_withIrqLine (d : DeviceTables β) (ioProxy io : β) (irq : BitVec 32) :
    (d.withIrqLine ioProxy irq).view io
      = { d.view io with
          irqs := (d.view io).irqs ++ if ioProxy = io then [⟨irq, ioProxy⟩] else [] } := by
  unfold DeviceTables.view
  congr 1
  show List.filter _ (d.irqs ++ [⟨irq, ioProxy⟩]) = _
  rw [List.filter_append, List.filter_singleton]
  by_cases h : ioProxy = io
  · simp [h]
  · simp [h]

theorem SameFor.withIrqLine {ioProxy : β} {s t : DeviceTables β} (h : SameFor ioProxy s t)
    (irq : BitVec 32) :
    SameFor ioProxy (s.withIrqLine ioProxy irq) (t.withIrqLine ioProxy irq) := by
  refine ⟨?_, h.2⟩
  rw [view_withIrqLine, view_withIrqLine, h.1]

/-- What `emudev_irq_set` does for an interrupt without a line. -/
def emudevIrqNew (d : DeviceTables β) (x : Answers) (ioProxy : β) (irq op : BitVec 32) :
    ℤ × DeviceTables β :=
  if x.calloc = false ∨ x.vmRegisterIrq ≠ 0 then (-1, d)
  else if x.listAppend ≠ 0 then (-1, d.withIrq irq)
  else emudevIrqOp (d.withIrqLine ioProxy irq) x ⟨irq, ioProxy⟩ op

theorem emudevIrqSet_none {d : DeviceTables β} (x : Answers) {ioProxy : β} {irq : BitVec 32}
    (hdev : irqIsEmulatedDevice irq = true) (hfind : irqResFind d ioProxy irq = none)
    (op : BitVec 32) : emudevIrqSet d x ioProxy irq op = emudevIrqNew d x ioProxy irq op := by
  unfold emudevIrqSet emudevIrqNew
  simp only [hdev, Bool.not_true, Bool.false_eq_true, if_false, hfind]
  rcases irqResAssign_outcome d x ioProxy irq with
    ⟨hfail, hr⟩ | ⟨hcalloc, hreg, happend, hr⟩ | ⟨hcalloc, hreg, happend, hr⟩
  · rw [hr, if_pos hfail]
    rfl
  · have hgo : ¬ (x.calloc = false ∨ x.vmRegisterIrq ≠ 0) := by simp [hcalloc, hreg]
    rw [hr, if_neg hgo, if_pos happend, if_pos happend]
  · have hgo : ¬ (x.calloc = false ∨ x.vmRegisterIrq ≠ 0) := by simp [hcalloc, hreg]
    rw [hr, if_neg hgo, if_neg (not_not_intro happend)]
    simp only [ne_eq, not_true_eq_false, if_false, irqResFind_withIrqLine hfind]

theorem emudevIrqSet_some {d : DeviceTables β} (x : Answers) {ioProxy : β} {irq : BitVec 32}
    (hdev : irqIsEmulatedDevice irq = true) {line : IrqLine β}
    (hfind : irqResFind d ioProxy irq = some line) (op : BitVec 32) :
    emudevIrqSet d x ioProxy irq op = emudevIrqOp d x line op := by
  unfold emudevIrqSet
  simp only [hdev, Bool.not_true, Bool.false_eq_true, if_false, hfind]

theorem isolated_irqNew (x : Answers) (ioProxy : β) (irq op : BitVec 32) :
    Isolated x ioProxy room fun d => emudevIrqNew d x ioProxy irq op := by
  unfold emudevIrqNew
  by_cases hfail : x.calloc = false ∨ x.vmRegisterIrq ≠ 0
  · simp only [if_pos hfail]
    exact .of_keeps (fun d => .refl d) fun _ _ _ _ => rfl
  simp only [if_neg hfail]
  by_cases happend : x.listAppend ≠ 0
  · simp only [if_pos happend]
    exact .of_keeps (fun d => ⟨_, d.pciIntx, rfl⟩) fun _ _ _ _ => rfl
  simp only [if_neg happend]
  constructor
  · intro io hio d
    rw [(emudevIrqOp_keepsTables _ x _ op).view, view_withIrqLine, if_neg (Ne.symm hio),
      List.append_nil]
  · intro d
    rw [(emudevIrqOp_keepsTables _ x _ op).length]
    exact le_refl d.pciDevs.length
  · intro _ s t _ hsame
    exact ⟨emudevIrqOp_result _ _ x _ op, (hsame.withIrqLine irq).keep
      (emudevIrqOp_keepsTables _ x _ op) (emudevIrqOp_keepsTables _ x _ op)⟩

theorem isolated_irqSet (x : Answers) (ioProxy : β) (irq op : BitVec 32) :
    Isolated x ioProxy room fun d => emudevIrqSet d x ioProxy irq op := by
  cases hdev : irqIsEmulatedDevice irq with
  | false =>
      have hfails : ∀ d : DeviceTables β, emudevIrqSet d x ioProxy irq op = (-1, d) := by
        intro d
        rw [emudevIrqSet, hdev]
        rfl
      simp only [hfails]
      exact .of_keeps (fun d => .refl d) fun _ _ _ _ => rfl
  | true =>
      have hnew : Isolated x ioProxy room fun d => emudevIrqNew d x ioProxy irq op :=
        isolated_irqNew x ioProxy irq op
      constructor
      · intro io hio d
        cases hfind : irqResFind d ioProxy irq with
        | none =>
            rw [emudevIrqSet_none x hdev hfind]
            exact hnew.others io hio d
        | some line =>
            rw [emudevIrqSet_some x hdev hfind, (emudevIrqOp_keepsTables d x line op).view]
      · intro d
        cases hfind : irqResFind d ioProxy irq with
        | none =>
            rw [emudevIrqSet_none x hdev hfind]
            exact hnew.grows d
        | some line =>
            rw [emudevIrqSet_some x hdev hfind, (emudevIrqOp_keepsTables d x line op).length]
      · intro hx s t hroom hsame
        -- the backend finds the same line in both tables
        have hsearch : irqResFind t ioProxy irq = irqResFind s ioProxy irq := by
          rw [irqResFind_view, irqResFind_view, hsame.1]
        cases hfind : irqResFind s ioProxy irq with
        | none =>
            rw [hfind] at hsearch
            rw [emudevIrqSet_none x hdev hfind, emudevIrqSet_none x hdev hsearch]
            exact hnew.own hx s t hroom hsame
        | some line =>
            rw [hfind] at hsearch
            rw [emudevIrqSet_some x hdev hfind, emudevIrqSet_some x hdev hsearch]
            exact ⟨emudevIrqOp_result s t x line op, hsame.keep
              (emudevIrqOp_keepsTables s x line op) (emudevIrqOp_keepsTables t x line op)⟩

/-! ### PCI devices -/

theorem pcidevIntxSet_keepsTables (d : DeviceTables β) (x : Answers) (ioProxy : β)
    (backendDevfn : BitVec 32) (level : Bool) :
    KeepsTables d (pcidevIntxSet d x ioProxy backendDevfn level).2 := by
  rcases pcidevIntxSet_cases d x ioProxy backendDevfn level with ⟨-, hr⟩ | ⟨pcidev, -, hr⟩
  · rw [hr]
    exact KeepsTables.refl d
  · rw [hr]
    exact ⟨_, _, rfl⟩

/-- When the VM takes the level, the result says whether the backend has the device. -/
theorem pcidevIntxSet_result (d : DeviceTables β) {x : Answers} (hx : ∀ b, x.vmSetIrqLevel b = 0)
    (ioProxy : β) (backendDevfn : BitVec 32) (level : Bool) :
    (pcidevIntxSet d x ioProxy backendDevfn level).1
      = if (pcidevFind d ioProxy backendDevfn).isSome then 0 else -1 := by
  rcases pcidevIntxSet_cases d x ioProxy backendDevfn level with ⟨hnone, hr⟩ | ⟨pcidev, hf, hr⟩
  · rw [hr, hnone]
    rfl
  · have hslot : ¬ 64 ≤ (pciSlot pcidev.devfn).toNat := by
      have hlt := pciSlot_lt pcidev.devfn
      omega
    have hok : (pciIntxChange d x (pciMapIrq pcidev) (pciSlot pcidev.devfn).toNat level).1 = 0 := by
      show (sharedIrqLineChange d.vm x _ (pciSlot pcidev.devfn).toNat level).1 = 0
      unfold sharedIrqLineChange
      rw [if_neg hslot]
      simp only [Vm.setIrqLevel_fst, hx]
      split
      · rfl
      · rfl
    rw [hr, hok, hf]
    rfl

theorem isolated_intxSet (x : Answers) (ioProxy : β) (backendDevfn : BitVec 32) (level : Bool) :
    Isolated x ioProxy room fun d => pcidevIntxSet d x ioProxy backendDevfn level := by
  apply Isolated.of_keeps
  · intro d
    exact pcidevIntxSet_keepsTables d x ioProxy backendDevfn level
  · intro hx s t hsame
    rw [pcidevIntxSet_result s hx, pcidevIntxSet_result t hx, pcidevFind_view, pcidevFind_view,
      hsame.1]

theorem isolated_handlePciIntx (x : Answers) (ioProxy : β) (backendDevfn irqOp : BitVec 32) :
    Isolated x ioProxy room fun d => handlePciIntx d x ioProxy backendDevfn irqOp := by
  have hkeeps : ∀ (d : DeviceTables β) (level : Bool),
      KeepsTables d (pcidevIntxSet d x ioProxy backendDevfn level).2 :=
    fun d level => pcidevIntxSet_keepsTables d x ioProxy backendDevfn level
  unfold handlePciIntx
  by_cases hset : irqOp = rpcIrqSet
  · simp only [if_pos hset]
    exact isolated_intxSet x ioProxy backendDevfn true
  simp only [if_neg hset]
  by_cases hclr : irqOp = rpcIrqClr
  · simp only [if_pos hclr]
    exact isolated_intxSet x ioProxy backendDevfn false
  simp only [if_neg hclr]
  by_cases hpulse : irqOp = rpcIrqPulse
  · simp only [if_pos hpulse]
    apply Isolated.of_keeps
    · intro d
      by_cases hfail : (pcidevIntxSet d x ioProxy backendDevfn true).1 = 0
      · rw [if_neg (not_not_intro hfail)]
        exact (hkeeps d true).trans (hkeeps _ false)
      · rw [if_pos hfail]
        exact hkeeps d true
    · intro hx s t hsame
      -- the second half of the pulse finds the device that the first has found
      have hsearch : ∀ d : DeviceTables β,
          pcidevFind (pcidevIntxSet d x ioProxy backendDevfn true).2 ioProxy backendDevfn
            = pcidevFind d ioProxy backendDevfn := by
        intro d
        rw [pcidevFind_view, (hkeeps d true).view, ← pcidevFind_view]
      have hfind : pcidevFind s ioProxy backendDevfn = pcidevFind t ioProxy backendDevfn := by
        rw [pcidevFind_view, pcidevFind_view, hsame.1]
      simp only [apply_ite Prod.fst, pcidevIntxSet_result _ hx, hsearch, hfind]
  · simp only [if_neg hpulse]
    exact .of_keeps (fun d => .refl d) fun _ _ _ _ => rfl

omit [DecidableEq β] in
/-- `pcidev_register` on a bus with room: the calls decide whether the device is added. -/
theorem pcidevRegister_room {d : DeviceTables β} (h : HasRoom d) (x : Answers) (ioProxy : β)
    (backendDevfn : BitVec 32) :
    pcidevRegister d x ioProxy backendDevfn
      = if x.calloc = true ∧ x.vmmPciAddEntry = 0 then
          (0, { d with pciDevs := d.pciDevs ++ [⟨pciDevfn (x.pciDev.setWidth 64)
            (x.pciFun.setWidth 64), backendDevfn, ioProxy⟩] })
        else (-1, d) := by
  have hroom : ¬ pciNumAvailDevices ≤ d.pciDevs.length := Nat.not_le.mpr h
  unfold pcidevRegister
  rw [if_neg hroom]
  cases hc : x.calloc with
  | false => simp
  | true =>
      by_cases hadd : x.vmmPciAddEntry = 0
      · simp [hadd]
      · simp [hadd]

theorem view_addDevice (d : DeviceTables β) (pcidev : Pcidev β) (io : β) :
    ({ d with pciDevs := d.pciDevs ++ [pcidev] } : DeviceTables β).view io
      = { d.view io with
          devices := (d.view io).devices ++ if pcidev.ioProxy = io then [pcidev] else [] } := by
  unfold DeviceTables.view
  congr 1
  rw [List.filter_append, List.filter_singleton]
  by_cases h : pcidev.ioProxy = io
  · simp [h]
  · simp [h]

theorem isolated_register (x : Answers) (ioProxy : β) (backendDevfn : BitVec 32) :
    Isolated x ioProxy True fun d => pcidevRegister d x ioProxy backendDevfn := by
  have hfull : ∀ d : DeviceTables β, ¬ HasRoom d →
      pcidevRegister d x ioProxy backendDevfn = (-1, d) := by
    intro d h
    rw [pcidevRegister, if_pos (Nat.not_lt.mp h)]
  constructor
  · intro io hio d
    by_cases h : HasRoom d
    · simp only [pcidevRegister_room h]
      split
      · rw [view_addDevice, if_neg (Ne.symm hio), List.append_nil]
      · rfl
    · rw [hfull d h]
  · intro d
    by_cases h : HasRoom d
    · simp only [pcidevRegister_room h]
      split
      · simp
      · exact le_refl _
    · rw [hfull d h]
  · intro _ s t hroom hsame
    have hroom' : HasRoom t := Nat.lt_of_le_of_lt hsame.2 (hroom trivial)
    simp only [pcidevRegister_room (hroom trivial), pcidevRegister_room hroom']
    by_cases h : x.calloc = true ∧ x.vmmPciAddEntry = 0
    · rw [if_pos h, if_pos h]
      refine ⟨rfl, ?_, ?_⟩
      · rw [view_addDevice, view_addDevice, hsame.1]
      · have hle := hsame.2
        simp only [List.length_append]
        omega
    · rw [if_neg h, if_neg h]
      exact ⟨rfl, hsame⟩

/-! ### Regions -/

theorem regionsOf_cons (m : MmioReservation β) (l : List (MmioReservation β)) (io : β) :
    regionsOf (m :: l) io
      = if m.ioProxy = io then (m.addr, m.size) :: regionsOf l io else regionsOf l io := by
  unfold regionsOf
  rw [List.filter_cons]
  by_cases h : m.ioProxy = io
  · simp [h]
  · simp [h]

theorem regionsOf_append (l l' : List (MmioReservation β)) (io : β) :
    regionsOf (l ++ l') io = regionsOf l io ++ regionsOf l' io := by
  unfold regionsOf
  rw [List.filter_append, List.map_append]

/-- The table has a region of the backend with the address and size. -/
theorem find_region (l : List (MmioReservation β)) (ioProxy : β) (addr size : Word) :
    (l.find? fun m => m.Is ioProxy addr size).isSome
      = decide ((addr, size) ∈ regionsOf l ioProxy) := by
  rw [Bool.eq_iff_iff, decide_eq_true_eq, List.find?_isSome]
  unfold regionsOf
  rw [List.mem_map]
  constructor
  · rintro ⟨m, hm, his⟩
    obtain ⟨haddr, hsize, hio⟩ := MmioReservation.is_iff.mp his
    refine ⟨m, List.mem_filter.mpr ⟨hm, decide_eq_true hio⟩, ?_⟩
    rw [haddr, hsize]
  · rintro ⟨m, hm, hkey⟩
    obtain ⟨hmem, hio⟩ := List.mem_filter.mp hm
    cases hkey
    exact ⟨m, hmem, MmioReservation.is_iff.mpr ⟨rfl, rfl, of_decide_eq_true hio⟩⟩

/-- The first region of a key is erased: the owner loses one entry of the key. -/
theorem regionsOf_eraseP (l : List (MmioReservation β)) (ioProxy io : β) (addr size : Word) :
    regionsOf (l.eraseP fun m => m.Is ioProxy addr size) io
      = if ioProxy = io then (regionsOf l io).erase (addr, size) else regionsOf l io := by
  induction l with
  | nil => simp [regionsOf]
  | cons m l ih =>
      by_cases his : m.Is ioProxy addr size = true
      · obtain ⟨haddr, hsize, hio⟩ := MmioReservation.is_iff.mp his
        rw [List.eraseP_cons_of_pos (p := fun m : MmioReservation β => m.Is ioProxy addr size) his,
          regionsOf_cons, hio]
        by_cases hown : ioProxy = io
        · rw [if_pos hown, if_pos hown, haddr, hsize, List.erase_cons_head]
        · rw [if_neg hown, if_neg hown]
      · rw [List.eraseP_cons_of_neg (p := fun m : MmioReservation β => m.Is ioProxy addr size) his,
          regionsOf_cons, regionsOf_cons, ih]
        by_cases hmem : m.ioProxy = io
        · rw [if_pos hmem, if_pos hmem]
          by_cases hown : ioProxy = io
          · have hkey : (m.addr, m.size) ≠ (addr, size) := by
              intro he
              cases he
              exact his (MmioReservation.is_iff.mpr ⟨rfl, rfl, hmem.trans hown.symm⟩)
            rw [if_pos hown, if_pos hown, List.erase_cons_tail (by simpa using hkey)]
          · rw [if_neg hown, if_neg hown]
        · rw [if_neg hmem, if_neg hmem]

theorem isolated_resFree (x : Answers) (ioProxy : β) (addr size : Word) :
    Isolated x ioProxy room fun d => mmioResFree d x ioProxy addr size := by
  -- the table loses the first entry of the key, and nothing if there is none
  have hview : ∀ (d : DeviceTables β) (io : β), (mmioResFree d x ioProxy addr size).2.view io
      = { d.view io with
          regions := if ioProxy = io then (d.view io).regions.erase (addr, size)
            else (d.view io).regions } := by
    intro d io
    unfold mmioResFree
    cases hf : d.mmioReservations.find? fun m => m.Is ioProxy addr size with
    | none =>
        have hout := find_region d.mmioReservations ioProxy addr size
        rw [hf] at hout
        by_cases hown : ioProxy = io
        · subst hown
          have hnot : (addr, size) ∉ (d.view ioProxy).regions := of_decide_eq_false hout.symm
          simp only [if_true, List.erase_of_not_mem hnot]
        · simp only [if_neg hown]
    | some m =>
        simp only
        unfold DeviceTables.view
        congr 1
        exact regionsOf_eraseP d.mmioReservations ioProxy io addr size
  have hdevs : ∀ d : DeviceTables β,
      (mmioResFree d x ioProxy addr size).2.pciDevs = d.pciDevs := by
    intro d
    unfold mmioResFree
    split
    · rfl
    · rfl
  have hresult : ∀ d : DeviceTables β, (mmioResFree d x ioProxy addr size).1
      = if (addr, size) ∈ regionsOf d.mmioReservations ioProxy then x.vmReservationFree
        else -1 := by
    intro d
    have hmem := find_region d.mmioReservations ioProxy addr size
    unfold mmioResFree
    cases hf : d.mmioReservations.find? fun m => m.Is ioProxy addr size with
    | none =>
        rw [hf] at hmem
        rw [if_neg (of_decide_eq_false hmem.symm)]
    | some m =>
        rw [hf] at hmem
        rw [if_pos (of_decide_eq_true hmem.symm)]
        exact Vm.release_fst _ _ _
  constructor
  · intro io hio d
    rw [hview, if_neg (Ne.symm hio)]
  · intro d
    rw [hdevs]
  · intro _ s t _ hsame
    have hregions : regionsOf s.mmioReservations ioProxy = regionsOf t.mmioReservations ioProxy :=
      congrArg BackendView.regions hsame.1
    refine ⟨?_, ?_, ?_⟩
    · rw [hresult, hresult, hregions]
    · rw [hview, hview, hsame.1]
    · rw [hdevs, hdevs]
      exact hsame.2

omit [DecidableEq β] in
/-- `mmio_res_assign`: the calls decide whether the region is put in the table. -/
theorem mmioResAssign_outcome (x : Answers) (ioProxy : β) (addr size : Word) :
    (∃ r, ∀ d : DeviceTables β, ∃ vm, mmioResAssign d x ioProxy addr size
        = (r, { d with vm := vm })) ∨
      ∀ d : DeviceTables β, ∃ vm res, mmioResAssign d x ioProxy addr size
        = (0, { d with
          vm := vm, mmioReservations := d.mmioReservations ++ [⟨addr, size, res, ioProxy⟩] }) := by
  unfold mmioResAssign Vm.reserve
  cases hres : x.vmReserveMemoryAt with
  | false => exact Or.inl ⟨-1, fun d => ⟨d.vm, rfl⟩⟩
  | true =>
      cases hcalloc : x.calloc with
      | false => exact Or.inl ⟨-1, fun d => ⟨_, rfl⟩⟩
      | true =>
          by_cases happend : x.listAppend = 0
          · apply Or.inr
            intro d
            simp only [if_true, Bool.not_true, Bool.false_eq_true, if_false, happend, ne_eq,
              not_true_eq_false]
            exact ⟨_, d.vm.nextRes, rfl⟩
          · apply Or.inl
            refine ⟨x.listAppend, fun d => ?_⟩
            simp only [if_true, Bool.not_true, Bool.false_eq_true, if_false, happend, ne_eq,
              not_false_eq_true]
            exact ⟨_, rfl⟩

theorem view_addRegion (d : DeviceTables β) (vm : Vm) (m : MmioReservation β) (io : β) :
    ({ d with vm := vm, mmioReservations := d.mmioReservations ++ [m] } : DeviceTables β).view io
      = { d.view io with
          regions := (d.view io).regions ++
            if m.ioProxy = io then [(m.addr, m.size)] else [] } := by
  unfold DeviceTables.view
  congr 1
  show regionsOf (d.mmioReservations ++ [m]) io = _
  rw [regionsOf_append, regionsOf_cons]
  rfl

theorem isolated_resAssign (x : Answers) (ioProxy : β) (addr size : Word) :
    Isolated x ioProxy room fun d => mmioResAssign d x ioProxy addr size := by
  rcases mmioResAssign_outcome (β := β) x ioProxy addr size with ⟨r, hfails⟩ | hadds
  · apply Isolated.of_keeps
    · intro d
      obtain ⟨vm, hd⟩ := hfails d
      rw [hd]
      exact ⟨vm, d.pciIntx, rfl⟩
    · intro _ s t _
      obtain ⟨vm, hs⟩ := hfails s
      obtain ⟨vm', ht⟩ := hfails t
      rw [hs, ht]
  · constructor
    · intro io hio d
      obtain ⟨vm, res, hd⟩ := hadds d
      rw [hd, view_addRegion, if_neg (Ne.symm hio), List.append_nil]
    · intro d
      obtain ⟨vm, res, hd⟩ := hadds d
      rw [hd]
    · intro _ s t _ hsame
      obtain ⟨vm, res, hs⟩ := hadds s
      obtain ⟨vm', res', ht⟩ := hadds t
      rw [hs, ht]
      refine ⟨rfl, ?_, hsame.2⟩
      rw [view_addRegion, view_addRegion, hsame.1]

theorem isolated_mmioConfig (x : Answers) (ioProxy : β) (addr size flags : Word) :
    Isolated x ioProxy room fun d => emudevMmioConfig d x ioProxy addr size flags := by
  unfold emudevMmioConfig
  by_cases hflags : flags &&& (~~~sel4MmioRegionFree).setWidth 64 ≠ 0#64
  · simp only [if_pos hflags]
    exact .of_keeps (fun d => .refl d) fun _ _ _ _ => rfl
  simp only [if_neg hflags]
  by_cases hfree : flags &&& sel4MmioRegionFree.setWidth 64 ≠ 0#64
  · simp only [if_pos hfree]
    exact isolated_resFree x ioProxy addr size
  · simp only [if_neg hfree]
    exact isolated_resAssign x ioProxy addr size

/-! ### The handlers -/

/-- What a handler's error is reported as depends on the error alone. -/
theorem Isolated.handledUnless {x : Answers} {ioProxy : β}
    {f : DeviceTables β → ℤ × DeviceTables β} (h : Isolated x ioProxy room f) :
    Isolated x ioProxy room fun d => Devices.handledUnless (f d) where
  others io hio d := h.others io hio d
  grows d := h.grows d
  own := by
    intro hx s t hroom hsame
    obtain ⟨hresult, hnext⟩ := h.own hx s t hroom hsame
    refine ⟨?_, hnext⟩
    show (if (f s).1 ≠ 0 then _ else _) = _
    rw [hresult]
    rfl

/-- A handler that leaves the event to the next one has done nothing. -/
def Declines (cb : Callback β) : Prop := ∀ d, (cb d).1 = .none → (cb d).2 = d

theorem isolated_handlePci (x : Answers) (ioProxy : β) (op : Word) (msg : RpcMsg) :
    Isolated x ioProxy (op = qemuOpRegisterPciDev) (handlePci x ioProxy op msg) ∧
      Declines (handlePci x ioProxy op msg) := by
  have hnothing : Isolated x ioProxy (op = qemuOpRegisterPciDev)
      (fun d : DeviceTables β => (RpcmsgRc.none, d)) :=
    .of_keeps (fun d => .refl d) fun _ _ _ _ => rfl
  unfold handlePci
  by_cases hirq : op = qemuOpSetIrq
  · simp only [if_pos hirq]
    cases hpci : irqIsPci ((msg mr1).setWidth 32) with
    | false => exact ⟨hnothing, fun d _ => rfl⟩
    | true =>
        refine ⟨(isolated_handlePciIntx x ioProxy _ _).handledUnless, ?_⟩
        intro d hnone
        exact absurd hnone (handledUnless_ne_none _)
  simp only [if_neg hirq]
  by_cases hreg : op = qemuOpRegisterPciDev
  · simp only [if_pos hreg]
    refine ⟨((isolated_register x ioProxy _).handledUnless).weaken fun _ => hreg, ?_⟩
    intro d hnone
    exact absurd hnone (handledUnless_ne_none _)
  · simp only [if_neg hreg]
    exact ⟨hnothing, fun d _ => rfl⟩

theorem isolated_handleEmudev (x : Answers) (ioProxy : β) (op : Word) (msg : RpcMsg) :
    Isolated x ioProxy room (handleEmudev x ioProxy op msg) ∧
      Declines (handleEmudev x ioProxy op msg) := by
  unfold handleEmudev
  by_cases hmmio : op = qemuOpMmioRegionConfig
  · simp only [if_pos hmmio]
    refine ⟨(isolated_mmioConfig x ioProxy _ _ _).handledUnless, ?_⟩
    intro d hnone
    exact absurd hnone (handledUnless_ne_none _)
  simp only [if_neg hmmio]
  by_cases hirq : op = qemuOpSetIrq
  · simp only [if_pos hirq]
    refine ⟨(isolated_irqSet x ioProxy _ _).handledUnless, ?_⟩
    intro d hnone
    exact absurd hnone (handledUnless_ne_none _)
  · simp only [if_neg hirq]
    exact ⟨.of_keeps (fun d => .refl d) fun _ _ _ _ => rfl, fun d _ => rfl⟩

theorem isolated_handleControl (x : Answers) (ioProxy : β) (op : Word) :
    Isolated x ioProxy room (handleControl ioProxy op) ∧ Declines (handleControl ioProxy op) := by
  unfold handleControl
  by_cases hstart : op = qemuOpStartVm
  · simp only [if_pos hstart]
    refine ⟨⟨?_, fun d => le_refl _, ?_⟩, fun d hnone => by cases hnone⟩
    · intro io hio d
      unfold DeviceTables.view
      congr 1
      exact Function.update_of_ne hio _ _
    · intro _ s t _ hsame
      refine ⟨rfl, ?_, hsame.2⟩
      have hview := hsame.1
      unfold DeviceTables.view at hview ⊢
      simp only [BackendView.mk.injEq] at hview ⊢
      refine ⟨hview.1, hview.2.1, hview.2.2.1, ?_⟩
      rw [Function.update_self, Function.update_self]
  · simp only [if_neg hstart]
    exact ⟨.of_keeps (fun d => .refl d) fun _ _ _ _ => rfl, fun d _ => rfl⟩

/-- `handle_msi` works on the VM's lines only. -/
theorem isolated_handleMsi (v2m : Option (Gicv2m γ)) (x : Answers) (ioProxy : β) (op : Word)
    (msg : RpcMsg) :
    Isolated x ioProxy room (handleMsi (platformMsi v2m x op msg)) ∧
      Declines (handleMsi (β := β) (platformMsi v2m x op msg)) := by
  refine ⟨.of_keeps (fun d => ⟨_, d.pciIntx, rfl⟩) fun _ _ _ _ => rfl, ?_⟩
  intro d hnone
  by_cases hout : op ≠ qemuOpSetIrq ∨ isMsi v2m ((msg mr1).setWidth 32) = false
  · rw [platformMsi_outside x hout]
    rfl
  · obtain ⟨hop, hin⟩ := not_or.mp hout
    cases v2m with
    | none => exact absurd rfl hin
    | some s =>
        have hvalid : Msi.v2mIrqValid s ((msg mr1).setWidth 32) = true :=
          Bool.eq_true_of_not_eq_false hin
        have hrc : (platformMsi (some s) x op msg).1 = .none := hnone
        unfold platformMsi Msi.msiIrqSet at hrc
        simp only [not_not.mp hop, if_true, hvalid, Bool.not_true, Bool.false_eq_true,
          if_false] at hrc
        split at hrc
        · split at hrc
          · cases hrc
          · cases hrc
        · split at hrc
          · cases hrc
          · cases hrc

theorem isolated_handleMmio (x : Answers) (mmio : RpcmsgRc) (ioProxy : β) (op : Word) :
    Isolated x ioProxy room (handleMmioEvent mmio op) ∧
      Declines (handleMmioEvent (β := β) mmio op) :=
  ⟨.of_keeps (fun d => .refl d) fun _ _ _ _ => rfl, fun _ _ => rfl⟩

/-- **The handlers in turn.**  The first that does not decline decides. -/
theorem isolated_runCallbacks {x : Answers} {ioProxy : β} (cbs : List (Callback β))
    (h : ∀ cb ∈ cbs, Isolated x ioProxy room cb ∧ Declines cb) :
    Isolated x ioProxy room (runCallbacks cbs) := by
  induction cbs with
  | nil => exact .of_keeps (fun d => .refl d) fun _ _ _ _ => rfl
  | cons cb cbs ih =>
      obtain ⟨hcb, hdeclines⟩ := h cb List.mem_cons_self
      have hrest := ih fun cb' hmem => h cb' (List.mem_cons_of_mem cb hmem)
      have hnext : ∀ d, (cb d).1 = .none → runCallbacks (cb :: cbs) d = runCallbacks cbs d := by
        intro d hnone
        exact runCallbacks_pass (Prod.ext hnone (hdeclines d hnone)) cbs
      have hstop : ∀ d, (cb d).1 ≠ .none → runCallbacks (cb :: cbs) d = cb d := by
        intro d hsome
        simp only [runCallbacks, if_neg hsome]
      constructor
      · intro io hio d
        by_cases hrc : (cb d).1 = .none
        · rw [hnext d hrc]
          exact hrest.others io hio d
        · rw [hstop d hrc]
          exact hcb.others io hio d
      · intro d
        by_cases hrc : (cb d).1 = .none
        · rw [hnext d hrc]
          exact hrest.grows d
        · rw [hstop d hrc]
          exact hcb.grows d
      · intro hx s t hroom hsame
        have hstep := hcb.own hx s t hroom hsame
        by_cases hrc : (cb s).1 = .none
        · have hrc' : (cb t).1 = .none := hstep.1.symm.trans hrc
          rw [hnext s hrc, hnext t hrc']
          exact hrest.own hx s t hroom hsame
        · have hrc' : (cb t).1 ≠ .none := fun he => hrc (hstep.1.trans he)
          rw [hstop s hrc, hstop t hrc']
          exact hstep

/-- `rpc_process` at an event of a backend. -/
theorem isolated_processEvent (v2m : Option (Gicv2m γ)) (x : Answers) (mmio : RpcmsgRc)
    (ioProxy : β) (msg : RpcMsg) :
    Isolated x ioProxy (qemuOp (msg mr0) = qemuOpRegisterPciDev)
      (processEvent v2m x mmio ioProxy msg) := by
  have hrun : Isolated x ioProxy (qemuOp (msg mr0) = qemuOpRegisterPciDev)
      (runCallbacks [handleMmioEvent mmio (qemuOp (msg mr0)),
        handleMsi (platformMsi v2m x (qemuOp (msg mr0)) msg),
        handlePci x ioProxy (qemuOp (msg mr0)) msg, handleEmudev x ioProxy (qemuOp (msg mr0)) msg,
        handleControl ioProxy (qemuOp (msg mr0))]) := by
    apply isolated_runCallbacks
    intro cb hmem
    simp only [List.mem_cons, List.not_mem_nil, or_false] at hmem
    rcases hmem with rfl | rfl | rfl | rfl | rfl
    · exact isolated_handleMmio x mmio ioProxy _
    · exact isolated_handleMsi v2m x ioProxy _ msg
    · exact isolated_handlePci x ioProxy _ msg
    · exact isolated_handleEmudev x ioProxy _ msg
    · exact isolated_handleControl x ioProxy _
  refine ⟨hrun.others, hrun.grows, ?_⟩
  intro hx s t hroom hsame
  obtain ⟨hrc, hnext⟩ := hrun.own hx s t hroom hsame
  refine ⟨?_, hnext⟩
  show (if (runCallbacks _ s).1 = .handled then (0 : ℤ) else -1) = _
  rw [hrc]
  rfl

/-! ### Runs -/

/-- An event of a backend, with what the calls made for it answer. -/
structure BackendEvent (β : Type) where
  x : Answers
  mmio : RpcmsgRc
  ioProxy : β
  msg : RpcMsg

/-- `rpc_process` at the event. -/
def BackendEvent.process (v2m : Option (Gicv2m γ)) (d : DeviceTables β) (e : BackendEvent β) :
    ℤ × DeviceTables β :=
  processEvent v2m e.x e.mmio e.ioProxy e.msg d

/-- The tables after the events. -/
def afterEvents (v2m : Option (Gicv2m γ)) (d : DeviceTables β) (events : List (BackendEvent β)) :
    DeviceTables β :=
  final (BackendEvent.process v2m) d events

/-- The event comes from the backend. -/
def sentBy (ioProxy : β) (e : BackendEvent β) : Bool := e.ioProxy = ioProxy

/-- What `rpc_process` returned for the events of the backend. -/
def resultsOf (v2m : Option (Gicv2m γ)) (ioProxy : β) (d : DeviceTables β)
    (events : List (BackendEvent β)) : List ℤ :=
  answers (BackendEvent.process v2m) (sentBy ioProxy) d events

/-- A device is registered while the bus has room, and the VM takes the levels that the backend's
events set. -/
def BackendEvent.Served (ioProxy : β) (d : DeviceTables β) (e : BackendEvent β) : Prop :=
  (qemuOp (e.msg mr0) = qemuOpRegisterPciDev → HasRoom d) ∧
    (e.ioProxy = ioProxy → ∀ b, e.x.vmSetIrqLevel b = 0)

/-- **Steps.**  An event of another backend is not seen, and an event of its own acts on what the
backend sees. -/
theorem backend_unwinds (v2m : Option (Gicv2m γ)) (ioProxy : β) :
    Unwinds (BackendEvent.process v2m) (sentBy ioProxy) (BackendEvent.Served ioProxy)
      (SameFor ioProxy) where
  hidden := by
    intro s t e hsame _ hother
    have hne : ioProxy ≠ e.ioProxy := Ne.symm (of_decide_eq_false hother)
    have he := isolated_processEvent v2m e.x e.mmio e.ioProxy e.msg
    exact ⟨(he.others ioProxy hne s).trans hsame.1, hsame.2.trans (he.grows s)⟩
  own := by
    intro s t e hsame hserved hown
    have hio : e.ioProxy = ioProxy := of_decide_eq_true hown
    subst hio
    exact (isolated_processEvent v2m e.x e.mmio e.ioProxy e.msg).own (hserved.2 rfl) s t hserved.1
      hsame

/-- **Isolation.**  Over any events of any backends, what a backend has in the tables and what
`rpc_process` returns for its events are the same as if the other backends had sent nothing, or
anything else. -/
theorem backend_isolation (v2m : Option (Gicv2m γ)) (ioProxy : β) {d : DeviceTables β}
    {events : List (BackendEvent β)}
    (h : Along (BackendEvent.process v2m) (BackendEvent.Served ioProxy) d events) :
    ((afterEvents v2m d events).view ioProxy
        = (afterEvents v2m d (events.filter (sentBy ioProxy))).view ioProxy ∧
      resultsOf v2m ioProxy d events
        = resultsOf v2m ioProxy d (events.filter (sentBy ioProxy))) ∧
      ∀ events', Along (BackendEvent.process v2m) (BackendEvent.Served ioProxy) d events' →
        events.filter (sentBy ioProxy) = events'.filter (sentBy ioProxy) →
          (afterEvents v2m d events).view ioProxy = (afterEvents v2m d events').view ioProxy ∧
            resultsOf v2m ioProxy d events = resultsOf v2m ioProxy d events' := by
  have hself : SameFor ioProxy d d := ⟨rfl, le_refl _⟩
  have hunwinds := backend_unwinds v2m ioProxy
  constructor
  · obtain ⟨hend, hanswers⟩ := hunwinds.purge hself h
    exact ⟨hend.1, hanswers⟩
  · intro events' h' hfilter
    exact hunwinds.agree (fun s t hsame => hsame.1) hself h h' hfilter

end Views

/-- Backend `true` registers a device and starts; in between the other reserves a region. -/
def twoBackends : List (BackendEvent Bool) :=
  [⟨callsSucceed, .none, true, (DeviceRequest.createVpciDevice 1#64).words⟩,
    ⟨callsSucceed, .none, false, (DeviceRequest.mmioRegionConfig 0#64 4096#64 0#64).words⟩,
    ⟨callsSucceed, .none, true, DeviceRequest.startVm.words⟩]

/-- `backend_isolation` for backend `true`. -/
theorem backend_isolation_two :
    (afterEvents (some virtFrame) noDevices twoBackends).view true
        = (afterEvents (some virtFrame) noDevices (twoBackends.filter (sentBy true))).view true ∧
      resultsOf (some virtFrame) true noDevices twoBackends
        = resultsOf (some virtFrame) true noDevices (twoBackends.filter (sentBy true)) := by
  have hroom : HasRoom noDevices := by
    unfold HasRoom
    decide
  have hserved : Along (BackendEvent.process (some virtFrame)) (BackendEvent.Served true) noDevices
      twoBackends :=
    ⟨⟨fun _ => hroom, fun _ _ => rfl⟩, ⟨fun h => absurd h (by decide), fun h => by cases h⟩,
      ⟨fun h => absurd h (by decide), fun _ _ => rfl⟩, trivial⟩
  exact (backend_isolation (some virtFrame) true hserved).1

end TiiSel4Vm.Devices
