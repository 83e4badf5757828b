import TiiSel4Vm.Lib.Transition
import TiiSel4Vm.Vmm.Devices

/-!
# Attaching a backend to a VM

`libsel4vm_io_proxy_init` runs the initialisers of the interrupt lines, of the MSIs and of the
emulated devices again for every backend.  `irq_init` remembers that it is done; `emudev_init` does
not.

* `init_frame` — what an initialisation does to the tables;
* `init_preserves_iff` — after any history it leaves the earlier backends' state in place exactly
  when it stops before `emudev_init` or finds the tables of emulated devices empty;
* `second_init_forgets` — a second backend's initialisation loses the first one's interrupt.
-/

namespace TiiSel4Vm.Devices

open TiiSel4Vm.Transition TiiSel4Vm.RpcQueue

/-! ### Initialisation -/

/-- A VM's tables, what `irq_init` remembers, and the backends whose initialisation succeeded. -/
structure Vmm (β : Type) where
  tables : DeviceTables β
  /-- `done` of `irq_init` -/
  irqDone : Bool
  attached : List β

/-- The answers of the calls made by an initialisation.  `list_init` makes its list empty whatever
it answers. -/
structure InitAnswers where
  vmReserveMemoryAt : Bool
  vmRegisterIrq : Fin pciNumPins → ℤ
  /-- the platform's `msi_init`: its result, and what it makes of the VM -/
  msiInit : ℤ
  msiVm : Vm → Vm
  irqListInit : ℤ
  mmioListInit : ℤ

section Init

variable {β : Type}

/-- `shared_irq_line_init` for line `i`. -/
def sharedIrqLineInit (d : DeviceTables β) (x : InitAnswers) (base : BitVec 32)
    (i : Fin pciNumPins) : ℤ × DeviceTables β :=
  let irq := base + BitVec.ofNat 32 i
  let r := d.vm.registerIrq (x.vmRegisterIrq i) irq
  (if r.1 ≠ 0 then -1 else 0,
    { d with vm := r.2, pciIntx := Function.update d.pciIntx i ⟨irq, 0#64⟩ })

/-- The loop of `irq_init` over the lines. -/
def irqInitLoop (x : InitAnswers) (base : BitVec 32) :
    List (Fin pciNumPins) → DeviceTables β → ℤ × DeviceTables β
  | [], d => (0, d)
  | i :: is, d =>
      let r := sharedIrqLineInit d x base i
      if r.1 ≠ 0 then r else irqInitLoop x base is r.2

/-- `irq_init`; `base` is `INTERRUPT_PCI_INTX_BASE`. -/
def irqInit (w : Vmm β) (x : InitAnswers) (base : BitVec 32) : ℤ × Vmm β :=
  if w.irqDone then (0, w)
  else
    let r := irqInitLoop x base (List.finRange pciNumPins) w.tables
    if r.1 = 0 then (0, { w with tables := r.2, irqDone := true })
    else (-1, { w with tables := r.2 })

/-- `emudev_init`, with `irq_res_init` and `mmio_res_init`. -/
def emudevInit (d : DeviceTables β) (x : InitAnswers) : ℤ × DeviceTables β :=
  let d := { d with irqs := [] }
  if x.irqListInit ≠ 0 then (x.irqListInit, d)
  else (x.mmioListInit, { d with mmioReservations := [] })

/-- `libsel4vm_io_proxy_init` up to `io_proxy_run`; `none` when the control plane cannot be
reserved, which aborts the VMM. -/
def libsel4vmIoProxyInit (w : Vmm β) (x : InitAnswers) (base : BitVec 32) (ctrlBase ctrlSize : Word)
    (ioProxy : β) : Option (ℤ × Vmm β) :=
  match w.tables.vm.reserve x.vmReserveMemoryAt ctrlBase ctrlSize with
  | (none, _) => none
  | (some _, vm) =>
      let r := irqInit { w with tables := { w.tables with vm := vm } } x base
      if r.1 ≠ 0 then some (-1, r.2)
      else
        let w := { r.2 with tables := { r.2.tables with vm := x.msiVm r.2.tables.vm } }
        if x.msiInit ≠ 0 then some (-1, w)
        else
          let e := emudevInit w.tables x
          if e.1 ≠ 0 then some (-1, { w with tables := e.2 })
          else some (0, { w with tables := e.2, attached := ioProxy :: w.attached })

/-! ### What an initialisation does to the tables -/

/-- The lines are found again, and nothing but the VM and the lines' sources changes. -/
theorem irqInitLoop_frame (x : InitAnswers) (base : BitVec 32) (is : List (Fin pciNumPins))
    (d : DeviceTables β) :
    (irqInitLoop x base is d).2.irqs = d.irqs ∧
      (irqInitLoop x base is d).2.mmioReservations = d.mmioReservations ∧
      (irqInitLoop x base is d).2.pciDevs = d.pciDevs := by
  induction is generalizing d with
  | nil => exact ⟨rfl, rfl, rfl⟩
  | cons i is ih =>
      unfold irqInitLoop
      by_cases h : (sharedIrqLineInit d x base i).1 ≠ 0
      · rw [if_pos h]
        exact ⟨rfl, rfl, rfl⟩
      · rw [if_neg h]
        exact ih (sharedIrqLineInit d x base i).2

/-- No line has a source after the loop that had none before. -/
theorem irqInitLoop_sources (x : InitAnswers) (base : BitVec 32) (is : List (Fin pciNumPins))
    (d : DeviceTables β) (hd : ∀ i, (d.pciIntx i).sources = 0#64) (j : Fin pciNumPins) :
    ((irqInitLoop x base is d).2.pciIntx j).sources = 0#64 := by
  induction is generalizing d with
  | nil => exact hd j
  | cons i is ih =>
      have hnext : ∀ k, ((sharedIrqLineInit d x base i).2.pciIntx k).sources = 0#64 := by
        intro k
        show (Function.update d.pciIntx i ⟨base + BitVec.ofNat 32 i, 0#64⟩ k).sources = 0#64
        by_cases hk : k = i
        · rw [hk, Function.update_self]
        · rw [Function.update_of_ne hk]
          exact hd k
      unfold irqInitLoop
      by_cases h : (sharedIrqLineInit d x base i).1 ≠ 0
      · rw [if_pos h]
        exact hnext j
      · rw [if_neg h]
        exact ih _ hnext

theorem sharedIrqLineInit_fails_iff (d : DeviceTables β) (x : InitAnswers) (base : BitVec 32)
    (i : Fin pciNumPins) : (sharedIrqLineInit d x base i).1 ≠ 0 ↔ x.vmRegisterIrq i ≠ 0 := by
  have hreg : (d.vm.registerIrq (x.vmRegisterIrq i) (base + BitVec.ofNat 32 i)).1
      = x.vmRegisterIrq i := by
    unfold Vm.registerIrq
    by_cases hx : x.vmRegisterIrq i = 0
    · rw [if_pos hx, hx]
    · rw [if_neg hx]
  unfold sharedIrqLineInit
  simp only [hreg]
  by_cases hx : x.vmRegisterIrq i ≠ 0
  · simp [hx]
  · simp [hx]

theorem irqInitLoop_fails_iff (x : InitAnswers) (base : BitVec 32) (is : List (Fin pciNumPins))
    (d : DeviceTables β) :
    (irqInitLoop x base is d).1 ≠ 0 ↔ ∃ i ∈ is, x.vmRegisterIrq i ≠ 0 := by
  induction is generalizing d with
  | nil => simp [irqInitLoop]
  | cons i is ih =>
      unfold irqInitLoop
      by_cases h : (sharedIrqLineInit d x base i).1 ≠ 0
      · rw [if_pos h]
        have hx := (sharedIrqLineInit_fails_iff d x base i).mp h
        exact ⟨fun _ => ⟨i, List.mem_cons_self, hx⟩, fun _ => h⟩
      · rw [if_neg h, ih]
        have hx : ¬ x.vmRegisterIrq i ≠ 0 :=
          fun hne => h ((sharedIrqLineInit_fails_iff d x base i).mpr hne)
        constructor
        · rintro ⟨j, hj, hne⟩
          exact ⟨j, List.mem_cons_of_mem _ hj, hne⟩
        · rintro ⟨j, hj, hne⟩
          rcases List.mem_cons.mp hj with rfl | hj
          · exact absurd hne hx
          · exact ⟨j, hj, hne⟩

/-- The initialisation fails before it comes to `emudev_init`. -/
def StopsBefore (w : Vmm β) (x : InitAnswers) : Prop :=
  (w.irqDone = false ∧ ∃ i, x.vmRegisterIrq i ≠ 0) ∨ x.msiInit ≠ 0

theorem irqInit_fails_iff (w : Vmm β) (x : InitAnswers) (base : BitVec 32) :
    (irqInit w x base).1 ≠ 0 ↔ w.irqDone = false ∧ ∃ i, x.vmRegisterIrq i ≠ 0 := by
  unfold irqInit
  cases hd : w.irqDone with
  | true => simp
  | false =>
      have hloop := irqInitLoop_fails_iff x base (List.finRange pciNumPins) w.tables
      by_cases h : (irqInitLoop x base (List.finRange pciNumPins) w.tables).1 = 0
      · simpa [h] using hloop
      · simpa [h] using hloop

/-- `irq_init` keeps the tables of emulated devices, the PCI devices and the sources. -/
theorem irqInit_frame {w : Vmm β} (x : InitAnswers) (base : BitVec 32)
    (h : w.irqDone = false → ∀ i, (w.tables.pciIntx i).sources = 0#64) :
    (irqInit w x base).2.tables.irqs = w.tables.irqs ∧
      (irqInit w x base).2.tables.mmioReservations = w.tables.mmioReservations ∧
      (irqInit w x base).2.tables.pciDevs = w.tables.pciDevs ∧
      ∀ i, ((irqInit w x base).2.tables.pciIntx i).sources = (w.tables.pciIntx i).sources := by
  unfold irqInit
  cases hd : w.irqDone with
  | true => exact ⟨rfl, rfl, rfl, fun _ => rfl⟩
  | false =>
      obtain ⟨hirqs, hmmio, hpci⟩ :=
        irqInitLoop_frame x base (List.finRange pciNumPins) w.tables
      have hsources : ∀ i, ((irqInitLoop x base (List.finRange pciNumPins) w.tables).2.pciIntx
          i).sources = (w.tables.pciIntx i).sources := by
        intro i
        rw [irqInitLoop_sources x base _ _ (h hd) i, h hd i]
      by_cases hr : (irqInitLoop x base (List.finRange pciNumPins) w.tables).1 = 0
      · simpa [hr] using ⟨hirqs, hmmio, hpci, hsources⟩
      · simpa [hr] using ⟨hirqs, hmmio, hpci, hsources⟩

/-- `emudev_init` empties the lines whatever the lists answer, and the regions if it comes to
them. -/
theorem emudevInit_frame (d : DeviceTables β) (x : InitAnswers) :
    (emudevInit d x).2.irqs = [] ∧
      (emudevInit d x).2.mmioReservations
        = (if x.irqListInit ≠ 0 then d.mmioReservations else []) ∧
      (emudevInit d x).2.pciDevs = d.pciDevs ∧ (emudevInit d x).2.pciIntx = d.pciIntx := by
  unfold emudevInit
  by_cases hlist : x.irqListInit ≠ 0
  · rw [if_pos hlist, if_pos hlist]
    exact ⟨rfl, rfl, rfl, rfl⟩
  · rw [if_neg hlist, if_neg hlist]
    exact ⟨rfl, rfl, rfl, rfl⟩

/-- **What an initialisation does.**  It stops early and keeps every table, or it empties the tables
of emulated devices. -/
theorem init_frame {w w' : Vmm β} {x : InitAnswers} {base : BitVec 32} {ctrlBase ctrlSize : Word}
    {ioProxy : β} {ret : ℤ} (hw : w.irqDone = false → ∀ i, (w.tables.pciIntx i).sources = 0#64)
    (h : libsel4vmIoProxyInit w x base ctrlBase ctrlSize ioProxy = some (ret, w')) :
    w'.tables.pciDevs = w.tables.pciDevs ∧
      (∀ i, (w'.tables.pciIntx i).sources = (w.tables.pciIntx i).sources) ∧
      ((StopsBefore w x ∧ w'.tables.irqs = w.tables.irqs ∧
          w'.tables.mmioReservations = w.tables.mmioReservations) ∨
        (¬ StopsBefore w x ∧ w'.tables.irqs = [] ∧
          w'.tables.mmioReservations
            = if x.irqListInit ≠ 0 then w.tables.mmioReservations else [])) := by
  unfold libsel4vmIoProxyInit at h
  split at h
  · cases h
  · rename_i vm hreserve
    -- `v` is the VMM once the control plane is reserved
    generalize hv : ({ w with tables := { w.tables with vm := vm } } : Vmm β) = v at h
    have hdone : v.irqDone = w.irqDone := by rw [← hv]
    have hintx : v.tables.pciIntx = w.tables.pciIntx := by rw [← hv]
    have hirq0 : v.tables.irqs = w.tables.irqs := by rw [← hv]
    have hmmio0 : v.tables.mmioReservations = w.tables.mmioReservations := by rw [← hv]
    have hpci0 : v.tables.pciDevs = w.tables.pciDevs := by rw [← hv]
    have hvw : v.irqDone = false → ∀ i, (v.tables.pciIntx i).sources = 0#64 := by
      rw [hdone, hintx]
      exact hw
    obtain ⟨hirqs, hmmio, hpci, hsources⟩ := irqInit_frame x base hvw
    have hfails := irqInit_fails_iff v x base
    rw [hirq0] at hirqs
    rw [hmmio0] at hmmio
    rw [hpci0] at hpci
    rw [hintx] at hsources
    rw [hdone] at hfails
    simp only at h
    by_cases hr : (irqInit v x base).1 ≠ 0
    · rw [if_pos hr] at h
      cases h
      exact ⟨hpci, hsources, Or.inl ⟨Or.inl (hfails.mp hr), hirqs, hmmio⟩⟩
    · rw [if_neg hr] at h
      by_cases hmsi : x.msiInit ≠ 0
      · rw [if_pos hmsi] at h
        cases h
        exact ⟨hpci, hsources, Or.inl ⟨Or.inr hmsi, hirqs, hmmio⟩⟩
      · rw [if_neg hmsi] at h
        have hstop : ¬ StopsBefore w x := by
          intro hs
          rcases hs with hs | hs
          · exact hr (hfails.mpr hs)
          · exact hmsi hs
        obtain ⟨hnone, hregions, hpci', hintx'⟩ := emudevInit_frame
          { (irqInit v x base).2.tables with vm := x.msiVm (irqInit v x base).2.tables.vm } x
        have htables : w'.tables = (emudevInit
            { (irqInit v x base).2.tables with
                vm := x.msiVm (irqInit v x base).2.tables.vm } x).2 := by
          split at h
          · cases h
            rfl
          · cases h
            rfl
        rw [htables]
        refine ⟨hpci'.trans hpci, fun i => ?_, Or.inr ⟨hstop, hnone, ?_⟩⟩
        · rw [hintx']
          exact hsources i
        · rw [hregions]
          simp only [hmmio]

theorem irqDone_of_irqInit {w : Vmm β} {x : InitAnswers} {base : BitVec 32}
    (h : (irqInit w x base).1 = 0) : (irqInit w x base).2.irqDone = true := by
  unfold irqInit at h ⊢
  cases hd : w.irqDone with
  | true => simpa using hd
  | false =>
      by_cases hr : (irqInitLoop x base (List.finRange pciNumPins) w.tables).1 = 0
      · simp [hr]
      · simp [hd, hr] at h

theorem irqDone_of_init {w w' : Vmm β} {x : InitAnswers} {base : BitVec 32}
    {ctrlBase ctrlSize : Word} {ioProxy : β}
    (h : libsel4vmIoProxyInit w x base ctrlBase ctrlSize ioProxy = some (0, w')) :
    w'.irqDone = true := by
  unfold libsel4vmIoProxyInit at h
  split at h
  · cases h
  · rename_i vm hreserve
    simp only at h
    split at h
    · cases h
    · rename_i hr
      rw [not_not] at hr
      have hdone := irqDone_of_irqInit hr
      split at h
      · cases h
      · split at h
        · cases h
        · cases h
          exact hdone

/-! ### Histories -/

/-- The static tables of a VMM that has attached no backend. -/
def Vmm.initial : Vmm β where
  tables :=
    { vm := ⟨[], 0, [], fun _ => false⟩
      pciIntx := fun _ => ⟨0#32, 0#64⟩
      pciDevs := []
      irqs := []
      mmioReservations := []
      okToRun := fun _ => false }
  irqDone := false
  attached := []

inductive VmmAct (β : Type) where
  /-- `libsel4vm_io_proxy_init` for a backend -/
  | init (ioProxy : β) (x : InitAnswers) (ctrlBase ctrlSize : Word)
  /-- `rpc_process` for an event of an attached backend -/
  | event (ioProxy : β) (x : Answers) (mmio : RpcmsgRc) (msi : RpcmsgRc × (Vm → Vm)) (msg : RpcMsg)

/-- Before `irq_init` is done no backend is attached, and no line has a source. -/
structure InitInv (w : Vmm β) : Prop where
  attached : w.irqDone = false → w.attached = []
  sources : w.irqDone = false → ∀ i, (w.tables.pciIntx i).sources = 0#64

theorem initInv_initial : InitInv (Vmm.initial : Vmm β) :=
  ⟨fun _ => rfl, fun _ _ => rfl⟩

section Histories

variable [DecidableEq β]

/-- One step.  A failed initialisation is the end of the VMM; a failed event need not be. -/
def vmmStep (base : BitVec 32) (w : Vmm β) : VmmAct β → Option (Vmm β)
  | .init ioProxy x ctrlBase ctrlSize =>
      if ioProxy ∈ w.attached then none
      else
        match libsel4vmIoProxyInit w x base ctrlBase ctrlSize ioProxy with
        | none => none
        | some (ret, w') => if ret = 0 then some w' else none
  | .event ioProxy x mmio msi msg =>
      if ioProxy ∈ w.attached then
        some { w with tables := (rpcProcess x mmio msi ioProxy msg w.tables).2 }
      else none

/-- A VM with any number of backends, attached and sending events in any order. -/
def vmmLts (base : BitVec 32) : Lts (Vmm β) (VmmAct β) :=
  .ofFun (fun w => w = .initial) (vmmStep base)

/-- Every entry of the tables is still there, and what looks one up still finds it. -/
structure Preserves (d d' : DeviceTables β) : Prop where
  mmioReservations : ∀ m ∈ d.mmioReservations, m ∈ d'.mmioReservations
  irqs : ∀ l ∈ d.irqs, l ∈ d'.irqs
  pciDevs : ∀ p ∈ d.pciDevs, p ∈ d'.pciDevs
  sources : ∀ i, (d'.pciIntx i).sources = (d.pciIntx i).sources
  irqResFind : ∀ io irq, (irqResFind d io irq).isSome → (irqResFind d' io irq).isSome
  mmioResFree : ∀ x io addr size, (mmioResFree d x io addr size).1 = 0 →
    (mmioResFree d' x io addr size).1 = 0

theorem InitInv.step {base : BitVec 32} {w w' : Vmm β} {a : VmmAct β} (hi : InitInv w)
    (h : vmmStep base w a = some w') : InitInv w' := by
  cases a with
  | init ioProxy x ctrlBase ctrlSize =>
      unfold vmmStep at h
      simp only at h
      split at h
      · cases h
      · split at h
        · cases h
        · rename_i ret v hinit
          split at h
          · rename_i hret
            cases h
            rw [hret] at hinit
            have hdone := irqDone_of_init hinit
            constructor
            · intro hf
              rw [hdone] at hf
              cases hf
            · intro hf
              rw [hdone] at hf
              cases hf
          · cases h
  | event ioProxy x mmio msi msg =>
      unfold vmmStep at h
      simp only at h
      split at h
      · rename_i hmem
        -- the sender is attached, so `irq_init` is done
        have hdone : ¬ w.irqDone = false := by
          intro hf
          rw [hi.attached hf] at hmem
          cases hmem
        cases h
        exact ⟨fun hf => absurd hf hdone, fun hf => absurd hf hdone⟩
      · cases h

theorem initInv_reachable {base : BitVec 32} {w : Vmm β} (h : (vmmLts base).Reachable w) :
    InitInv w := by
  apply h.invariant (I := InitInv)
  · intro s hs
    rw [hs]
    exact initInv_initial
  · intro s l t _ hs hst
    exact hs.step hst

/-- Entries that are kept are found. -/
theorem Preserves.of_entries {d d' : DeviceTables β}
    (hmmio : ∀ m ∈ d.mmioReservations, m ∈ d'.mmioReservations) (hirqs : ∀ l ∈ d.irqs, l ∈ d'.irqs)
    (hpci : ∀ p ∈ d.pciDevs, p ∈ d'.pciDevs)
    (hsources : ∀ i, (d'.pciIntx i).sources = (d.pciIntx i).sources) : Preserves d d' where
  mmioReservations := hmmio
  irqs := hirqs
  pciDevs := hpci
  sources := hsources
  irqResFind := by
    intro io irq h
    rw [irqResFind_isSome_iff] at h ⊢
    obtain ⟨l, hl, hkey⟩ := h
    exact ⟨l, hirqs l hl, hkey⟩
  mmioResFree := by
    intro x io addr size h
    rw [mmioResFree_eq_zero_iff] at h ⊢
    obtain ⟨hx, m, hm, hkey⟩ := h
    exact ⟨hx, m, hmmio m hm, hkey⟩

/-- **A further backend.**  After any history, the initialisation of another backend leaves the
earlier backends' state in place exactly when it fails before it comes to `emudev_init`, or finds no
interrupt there and keeps or finds empty the MMIO reservations. -/
theorem init_preserves_iff {base : BitVec 32} {w w' : Vmm β} {x : InitAnswers}
    {ctrlBase ctrlSize : Word} {ioProxy : β} {ret : ℤ} (hr : (vmmLts base).Reachable w)
    (h : libsel4vmIoProxyInit w x base ctrlBase ctrlSize ioProxy = some (ret, w')) :
    Preserves w.tables w'.tables ↔
      StopsBefore w x ∨
        (w.tables.irqs = [] ∧ (x.irqListInit ≠ 0 ∨ w.tables.mmioReservations = [])) := by
  obtain ⟨hpci, hsources, hcases⟩ := init_frame (initInv_reachable hr).sources h
  have hpci' : ∀ p ∈ w.tables.pciDevs, p ∈ w'.tables.pciDevs := by
    intro p hp
    rw [hpci]
    exact hp
  rcases hcases with ⟨hstop, hirqs, hmmio⟩ | ⟨hstop, hirqs, hmmio⟩
  · constructor
    · intro _
      exact Or.inl hstop
    · intro _
      apply Preserves.of_entries _ _ hpci' hsources
      · intro m hm
        rw [hmmio]
        exact hm
      · intro l hl
        rw [hirqs]
        exact hl
  · constructor
    · intro hp
      refine Or.inr ⟨?_, ?_⟩
      · apply List.eq_nil_iff_forall_not_mem.mpr
        intro l hl
        have hkept := hp.irqs l hl
        rw [hirqs] at hkept
        cases hkept
      · by_cases hlist : x.irqListInit ≠ 0
        · exact Or.inl hlist
        · apply Or.inr
          apply List.eq_nil_iff_forall_not_mem.mpr
          intro m hm
          have hkept := hp.mmioReservations m hm
          rw [hmmio, if_neg hlist] at hkept
          cases hkept
    · intro hcond
      rcases hcond with hs | ⟨hnone, hkeep⟩
      · exact absurd hs hstop
      · apply Preserves.of_entries _ _ hpci' hsources
        · intro m hm
          rcases hkeep with hlist | hempty
          · rw [hmmio, if_pos hlist]
            exact hm
          · rw [hempty] at hm
            cases hm
        · intro l hl
          rw [hnone] at hl
          cases hl

end Histories

end Init

/-! ### Two backends -/

/-- An initialisation in which every call succeeds. -/
def initSucceeds : InitAnswers := ⟨true, fun _ => 0, 0, id, 0, 0⟩

/-- An event that only the callbacks for PCI, emulated devices and control can handle. -/
def deviceEvent {β : Type} (ioProxy : β) (msg : RpcMsg) : VmmAct β :=
  .event ioProxy callsSucceed .none (.none, id) msg

/-- The first backend is attached, sets interrupt 40 and reserves a region. -/
def firstBackend : List (VmmAct Bool) :=
  [.init false initSucceeds 0x1000#64 0x1000#64,
    deviceEvent false (eventMsg qemuOpSetIrq 40#64 1#64 0#64),
    deviceEvent false (eventMsg qemuOpMmioRegionConfig 0x8000#64 0x1000#64 0#64)]

/-- The second backend's initialisation succeeds, and the first one's interrupt and region are
forgotten. -/
theorem second_init_forgets :
    ∃ w w' : Vmm Bool, (vmmLts 128#32).Reachable w ∧ w.attached = [false] ∧
      libsel4vmIoProxyInit w initSucceeds 128#32 0x2000#64 0x1000#64 true = some (0, w') ∧
      (irqResFind w.tables false 40#32).isSome = true ∧
      (irqResFind w'.tables false 40#32).isSome = false ∧
      (mmioResFree w.tables callsSucceed false 0x8000#64 0x1000#64).1 = 0 ∧
      (mmioResFree w'.tables callsSucceed false 0x8000#64 0x1000#64).1 = -1 ∧
      ¬ Preserves w.tables w'.tables := by
  let w : Vmm Bool := play (vmmStep 128#32) .initial firstBackend
  have hreach : (vmmLts 128#32).Reachable w :=
    Lts.Reachable.play (fun _ _ _ h => h) (.init rfl) firstBackend
  have hafter : (libsel4vmIoProxyInit w initSucceeds 128#32 0x2000#64 0x1000#64 true).map
      (fun r => (r.1, (irqResFind r.2.tables false 40#32).isSome,
        (mmioResFree r.2.tables callsSucceed false 0x8000#64 0x1000#64).1))
      = some (0, false, -1) := by
    decide +kernel
  obtain ⟨⟨ret, w'⟩, hinit, hvals⟩ := Option.map_eq_some_iff.mp hafter
  simp only [Prod.mk.injEq] at hvals
  obtain ⟨hret, hirq, hmmio⟩ := hvals
  rw [hret] at hinit
  have hfound : (irqResFind w.tables false 40#32).isSome = true := by decide +kernel
  have hfree : (mmioResFree w.tables callsSucceed false 0x8000#64 0x1000#64).1 = 0 := by
    decide +kernel
  refine ⟨w, w', hreach, by decide +kernel, hinit, hfound, hirq, hfree, hmmio, ?_⟩
  intro hp
  have hkept := hp.irqResFind false 40#32 hfound
  rw [hirq] at hkept
  cases hkept

/-- The first backend is attached, registers a PCI device and sets its interrupt. -/
def pciBackend : List (VmmAct Bool) :=
  [.init false initSucceeds 0x1000#64 0x1000#64,
    deviceEvent false (eventMsg qemuOpRegisterPciDev 3#64 0#64 0#64),
    deviceEvent false (eventMsg qemuOpSetIrq 3#64 1#64 0#64)]

/-- A second backend that comes while the first one has a PCI device with its interrupt set, and one
whose `msi_init` fails while the first one has an interrupt and a region: all of them are kept. -/
theorem init_preserves_iff_kept :
    (∃ w w' : Vmm Bool, (vmmLts 128#32).Reachable w ∧ w.tables.pciDevs.length = 1 ∧
      (w.tables.pciIntx 1).sources ≠ 0#64 ∧
      libsel4vmIoProxyInit w initSucceeds 128#32 0x2000#64 0x1000#64 true = some (0, w') ∧
      Preserves w.tables w'.tables) ∧
    ∃ w w' : Vmm Bool, (vmmLts 128#32).Reachable w ∧ w.tables.irqs.length = 1 ∧
      w.tables.mmioReservations.length = 1 ∧
      libsel4vmIoProxyInit w { initSucceeds with msiInit := -1 } 128#32 0x2000#64 0x1000#64 true
        = some (-1, w') ∧
      Preserves w.tables w'.tables := by
  constructor
  · let w : Vmm Bool := play (vmmStep 128#32) .initial pciBackend
    have hreach : (vmmLts 128#32).Reachable w :=
      Lts.Reachable.play (fun _ _ _ h => h) (.init rfl) _
    have hafter : (libsel4vmIoProxyInit w initSucceeds 128#32 0x2000#64 0x1000#64 true).map Prod.fst
        = some 0 := by
      decide +kernel
    obtain ⟨⟨ret, w'⟩, hinit, hret⟩ := Option.map_eq_some_iff.mp hafter
    rw [show ret = 0 from hret] at hinit
    have hirqs : w.tables.irqs = [] := by decide +kernel
    have hmmio : w.tables.mmioReservations = [] := by decide +kernel
    exact ⟨w, w', hreach, by decide +kernel, by decide +kernel, hinit,
      (init_preserves_iff hreach hinit).mpr (Or.inr ⟨hirqs, Or.inr hmmio⟩)⟩
  · let w : Vmm Bool := play (vmmStep 128#32) .initial firstBackend
    have hreach : (vmmLts 128#32).Reachable w :=
      Lts.Reachable.play (fun _ _ _ h => h) (.init rfl) _
    have hafter : (libsel4vmIoProxyInit w { initSucceeds with msiInit := -1 } 128#32 0x2000#64
        0x1000#64 true).map Prod.fst = some (-1) := by
      decide +kernel
    obtain ⟨⟨ret, w'⟩, hinit, hret⟩ := Option.map_eq_some_iff.mp hafter
    rw [show ret = -1 from hret] at hinit
    have hstops : StopsBefore w { initSucceeds with msiInit := -1 } :=
      Or.inr (show (-1 : ℤ) ≠ 0 by decide)
    exact ⟨w, w', hreach, by decide +kernel, by decide +kernel, hinit,
      (init_preserves_iff hreach hinit).mpr (Or.inl hstops)⟩

end TiiSel4Vm.Devices
