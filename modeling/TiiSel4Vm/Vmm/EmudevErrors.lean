import TiiSel4Vm.Vmm.EmulatedDevices

/-!
# Errors of emulated devices

An event acquires what it needs step by step: a region of the VM, an interrupt, an entry of a table.
`RPCMSG_RC_ERROR` can come after any of them.

* `SameHoldings` — the tables, the regions of the VM and its interrupts are the same;
* `handleEmudev_restores_iff` — the failures that are undone, and with them the ones that are not;
* `emudevMmioConfigBy` — `emudev_mmio_config` over whatever carries out its calls, so that the calls
  can be listed;
* `mmioConfig_calls_iff` — the flags for which the unknown-flag check does what it is there for.
-/

namespace TiiSel4Vm.Devices

open TiiSel4Vm.RpcQueue

section Restores

variable {β : Type}

/-! ### Failures that are undone -/

/-- The two tables, the regions reserved in the VM and the interrupts registered with it are the
same.  A reservation has its own `res`, so the list of regions is their set. -/
structure SameHoldings (d d' : DeviceTables β) : Prop where
  mmioReservations : d'.mmioReservations = d.mmioReservations
  irqs : d'.irqs = d.irqs
  reserved : d'.vm.reserved = d.vm.reserved
  registered : ∀ irq, irq ∈ d'.vm.registered ↔ irq ∈ d.vm.registered

theorem SameHoldings.refl (d : DeviceTables β) : SameHoldings d d :=
  ⟨rfl, rfl, rfl, fun _ => Iff.rfl⟩

/-- An error, if it is one, leaves the holdings. -/
def Restores (d : DeviceTables β) (r : ℤ × DeviceTables β) : Prop := r.1 ≠ 0 → SameHoldings d r.2

/-- `mmio_res_assign` fails with the region reserved. -/
def StrandsRegion (x : Answers) : Prop :=
  x.vmReserveMemoryAt = true ∧ (x.calloc = false ∨ x.listAppend ≠ 0)

theorem mmioResAssign_restores_iff (d : DeviceTables β) (x : Answers) (ioProxy : β)
    (addr size : Word) : Restores d (mmioResAssign d x ioProxy addr size) ↔ ¬ StrandsRegion x := by
  have hgrown : ¬ SameHoldings d { d with vm := (d.vm.reserve true addr size).2 } := by
    intro h
    have hlen := congrArg List.length h.reserved
    simp [Vm.reserve] at hlen
  unfold Restores StrandsRegion
  cases hr : x.vmReserveMemoryAt with
  | false =>
      have hres : mmioResAssign d x ioProxy addr size = (-1, d) := by
        simp [mmioResAssign, Vm.reserve, hr]
      rw [hres]
      simp [SameHoldings.refl]
  | true =>
      cases hc : x.calloc with
      | false =>
          have hres : mmioResAssign d x ioProxy addr size
              = (-1, { d with vm := (d.vm.reserve true addr size).2 }) := by
            simp [mmioResAssign, Vm.reserve, hr, hc]
          rw [hres]
          simp [hgrown]
      | true =>
          by_cases hl : x.listAppend = 0
          · have hres : (mmioResAssign d x ioProxy addr size).1 = 0 := by
              simp [mmioResAssign, Vm.reserve, hr, hc, hl]
            simp [hres, hl]
          · have hres : mmioResAssign d x ioProxy addr size
                = (x.listAppend, { d with vm := (d.vm.reserve true addr size).2 }) := by
              simp [mmioResAssign, Vm.reserve, hr, hc, hl]
            rw [hres]
            simp [hgrown, hl]

variable [DecidableEq β]

/-- `mmio_res_free` fails with the entry of a reservation removed. -/
def DropsEntry (d : DeviceTables β) (x : Answers) (ioProxy : β) (addr size : Word) : Prop :=
  x.vmReservationFree ≠ 0 ∧ ∃ m ∈ d.mmioReservations, m.Is ioProxy addr size = true

theorem mmioResFree_restores_iff (d : DeviceTables β) (x : Answers) (ioProxy : β)
    (addr size : Word) :
    Restores d (mmioResFree d x ioProxy addr size) ↔ ¬ DropsEntry d x ioProxy addr size := by
  unfold Restores DropsEntry
  rcases mmioResFree_cases d x ioProxy addr size with ⟨hno, hr⟩ | ⟨pre, m, post, hsplit, hm, hr⟩
  · rw [hr]
    constructor
    · rintro - ⟨-, m, hm, his⟩
      exact hno m hm his
    · intro _ _
      exact SameHoldings.refl d
  · have hmem : m ∈ d.mmioReservations := by
      rw [hsplit]
      exact List.mem_append_right _ List.mem_cons_self
    rw [hr]
    constructor
    · rintro hsame ⟨hx, -⟩
      have hlen := congrArg List.length (hsame hx).mmioReservations
      rw [hsplit] at hlen
      simp only [List.length_append, List.length_cons] at hlen
      omega
    · intro hno hx
      exact absurd ⟨hx, m, hmem, hm⟩ hno

/-- The interrupt operation fails on the line it is given. -/
def IrqOpFails (x : Answers) (op : BitVec 32) : Prop :=
  if op = rpcIrqSet then x.vmSetIrqLevel true ≠ 0
  else if op = rpcIrqClr then x.vmSetIrqLevel false ≠ 0
  else if op = rpcIrqPulse then x.vmSetIrqLevel true ≠ 0 ∨ x.vmSetIrqLevel false ≠ 0
  else True

omit [DecidableEq β] in
theorem emudevIrqOp_fails_iff (d : DeviceTables β) (x : Answers) (line : IrqLine β)
    (op : BitVec 32) : (emudevIrqOp d x line op).1 ≠ 0 ↔ IrqOpFails x op := by
  unfold emudevIrqOp IrqOpFails irqLinePulse irqLineChange vmSetIrqLevel
  split
  · simp
  · split
    · simp
    · split
      · by_cases h : x.vmSetIrqLevel true = 0
        · simp [h]
        · simp [h]
      · simp

omit [DecidableEq β] in
theorem emudevIrqOp_registered (d : DeviceTables β) (x : Answers) (line : IrqLine β)
    (op : BitVec 32) : (emudevIrqOp d x line op).2.vm.registered = d.vm.registered := by
  have hchange : ∀ (d : DeviceTables β) (b : Bool),
      (irqLineChange d x line b).2.vm.registered = d.vm.registered := by
    intro d b
    show (d.vm.setIrqLevel _ _ _).2.registered = _
    unfold Vm.setIrqLevel
    split
    · rfl
    · rfl
  unfold emudevIrqOp
  rw [irqLinePulse_eq]
  split
  · exact hchange d true
  · split
    · exact hchange d false
    · split
      · split
        · exact hchange d true
        · exact (hchange _ false).trans (hchange d true)
      · rfl

omit [DecidableEq β] in
theorem emudevIrqOp_sameHoldings (d : DeviceTables β) (x : Answers) (line : IrqLine β)
    (op : BitVec 32) : SameHoldings d (emudevIrqOp d x line op).2 := by
  obtain ⟨hirqs, hmmio, hres, -, -⟩ := emudevIrqOp_frame d x line op
  refine ⟨hmmio, hirqs, hres, ?_⟩
  intro irq
  rw [emudevIrqOp_registered]

/-- The VM has the interrupt. -/
def DeviceTables.withIrq (d : DeviceTables β) (irq : BitVec 32) : DeviceTables β :=
  { d with vm := { d.vm with registered := d.vm.registered ++ [irq] } }

/-- The VM has the interrupt and the table its line. -/
def DeviceTables.withIrqLine (d : DeviceTables β) (ioProxy : β) (irq : BitVec 32) :
    DeviceTables β :=
  { d.withIrq irq with irqs := d.irqs ++ [⟨irq, ioProxy⟩] }

omit [DecidableEq β] in
theorem sameHoldings_withIrq_iff (d : DeviceTables β) (irq : BitVec 32) :
    SameHoldings d (d.withIrq irq) ↔ irq ∈ d.vm.registered := by
  constructor
  · intro h
    apply (h.registered irq).mp
    exact List.mem_append_right _ (List.mem_singleton.mpr rfl)
  · intro hmem
    refine ⟨rfl, rfl, rfl, ?_⟩
    intro irq'
    show irq' ∈ d.vm.registered ++ [irq] ↔ _
    rw [List.mem_append, List.mem_singleton]
    constructor
    · rintro (h | rfl)
      · exact h
      · exact hmem
    · exact Or.inl

omit [DecidableEq β] in
/-- A line put in the table stays there, whatever is done with it. -/
theorem not_sameHoldings_withIrqLine {d d' : DeviceTables β} {ioProxy : β} {irq : BitVec 32}
    (h : SameHoldings (d.withIrqLine ioProxy irq) d') : ¬ SameHoldings d d' := by
  intro hsame
  have hirqs : d.irqs ++ [⟨irq, ioProxy⟩] = d.irqs := h.irqs.symm.trans hsame.irqs
  have hlen := congrArg List.length hirqs
  simp at hlen

theorem irqResFind_withIrqLine {d : DeviceTables β} {ioProxy : β} {irq : BitVec 32}
    (hf : irqResFind d ioProxy irq = none) :
    irqResFind (d.withIrqLine ioProxy irq) ioProxy irq = some ⟨irq, ioProxy⟩ := by
  unfold irqResFind at hf ⊢
  show List.find? _ (d.irqs ++ [⟨irq, ioProxy⟩]) = _
  rw [List.find?_append, hf]
  simp

/-- `emudev_irq_set` fails with an interrupt registered that was not: the line is not put in the
table, or it is and the operation fails. -/
def StrandsLine (d : DeviceTables β) (x : Answers) (ioProxy : β) (irq op : BitVec 32) : Prop :=
  irqIsEmulatedDevice irq = true ∧ irqResFind d ioProxy irq = none ∧ x.calloc = true ∧
    x.vmRegisterIrq = 0 ∧
    if x.listAppend ≠ 0 then irq ∉ d.vm.registered else IrqOpFails x op

omit [DecidableEq β] in
/-- What `irq_res_assign` does. -/
theorem irqResAssign_outcome (d : DeviceTables β) (x : Answers) (ioProxy : β) (irq : BitVec 32) :
    ((x.calloc = false ∨ x.vmRegisterIrq ≠ 0) ∧ irqResAssign d x ioProxy irq = (-1, d)) ∨
      (x.calloc = true ∧ x.vmRegisterIrq = 0 ∧ x.listAppend ≠ 0 ∧
        irqResAssign d x ioProxy irq = (x.listAppend, d.withIrq irq)) ∨
      (x.calloc = true ∧ x.vmRegisterIrq = 0 ∧ x.listAppend = 0 ∧
        irqResAssign d x ioProxy irq = (0, d.withIrqLine ioProxy irq)) := by
  unfold DeviceTables.withIrqLine DeviceTables.withIrq
  cases hc : x.calloc with
  | false =>
      apply Or.inl
      simp [irqResAssign, hc]
  | true =>
      by_cases hr : x.vmRegisterIrq = 0
      · apply Or.inr
        by_cases hl : x.listAppend = 0
        · apply Or.inr
          simp [irqResAssign, Vm.registerIrq, hc, hr, hl]
        · apply Or.inl
          simp [irqResAssign, Vm.registerIrq, hc, hr, hl]
      · apply Or.inl
        simp [irqResAssign, Vm.registerIrq, hc, hr]

theorem emudevIrqSet_restores_iff (d : DeviceTables β) (x : Answers) (ioProxy : β)
    (irq op : BitVec 32) :
    Restores d (emudevIrqSet d x ioProxy irq op) ↔ ¬ StrandsLine d x ioProxy irq op := by
  unfold Restores StrandsLine emudevIrqSet
  cases hemu : irqIsEmulatedDevice irq with
  | false => simp [SameHoldings.refl]
  | true =>
      cases hf : irqResFind d ioProxy irq with
      | some line => simp [emudevIrqOp_sameHoldings]
      | none =>
          rcases irqResAssign_outcome d x ioProxy irq with
            ⟨hfail, hr⟩ | ⟨hc, hreg, hl, hr⟩ | ⟨hc, hreg, hl, hr⟩
          · have hno : ¬ (x.calloc = true ∧ x.vmRegisterIrq = 0) := by
              rintro ⟨hc, hreg⟩
              rcases hfail with h | h
              · rw [hc] at h
                cases h
              · exact h hreg
            simp only [hr]
            simp only [Bool.not_true, Bool.false_eq_true, if_false, true_and]
            constructor
            · rintro - ⟨hc, hreg, -⟩
              exact hno ⟨hc, hreg⟩
            · intro _ _
              exact SameHoldings.refl d
          · simp only [hr]
            simp [hc, hreg, hl, sameHoldings_withIrq_iff]
          · have hkept := not_sameHoldings_withIrqLine
              (emudevIrqOp_sameHoldings (d.withIrqLine ioProxy irq) x ⟨irq, ioProxy⟩ op)
            have hfails := emudevIrqOp_fails_iff (d.withIrqLine ioProxy irq) x ⟨irq, ioProxy⟩ op
            simp only [hr, irqResFind_withIrqLine hf, Bool.not_true, Bool.false_eq_true, if_false,
              ne_eq, not_true_eq_false]
            rw [← hfails]
            simp [hc, hreg, hl, hkept]

/-- The event leaves something behind that it acquired, or takes a table's entry without freeing its
region. -/
def Strands (d : DeviceTables β) (x : Answers) (ioProxy : β) (op : Word) (msg : RpcMsg) : Prop :=
  if op = qemuOpMmioRegionConfig then
    (msg mr3 &&& (~~~sel4MmioRegionFree).setWidth 64 = 0#64) ∧
      if msg mr3 &&& sel4MmioRegionFree.setWidth 64 ≠ 0#64
      then DropsEntry d x ioProxy (msg mr1) (msg mr2) else StrandsRegion x
  else
    op = qemuOpSetIrq ∧
      StrandsLine d x ioProxy ((msg mr1).setWidth 32) ((msg mr2).setWidth 32)

theorem emudevMmioConfig_restores_iff (d : DeviceTables β) (x : Answers) (ioProxy : β)
    (addr size flags : Word) :
    Restores d (emudevMmioConfig d x ioProxy addr size flags) ↔
      ¬ (flags &&& (~~~sel4MmioRegionFree).setWidth 64 = 0#64 ∧
        if flags &&& sel4MmioRegionFree.setWidth 64 ≠ 0#64
        then DropsEntry d x ioProxy addr size else StrandsRegion x) := by
  unfold emudevMmioConfig
  by_cases hunknown : flags &&& (~~~sel4MmioRegionFree).setWidth 64 = 0#64
  · rw [if_neg (not_not_intro hunknown)]
    by_cases hfree : flags &&& sel4MmioRegionFree.setWidth 64 = 0#64
    · rw [if_neg (not_not_intro hfree), if_neg (not_not_intro hfree),
        mmioResAssign_restores_iff]
      simp [hunknown]
    · rw [if_pos hfree, if_pos hfree, mmioResFree_restores_iff]
      simp [hunknown]
  · rw [if_pos hunknown]
    simp [Restores, SameHoldings.refl, hunknown]

omit [DecidableEq β] in
theorem handledUnless_eq_error_iff {r : ℤ × DeviceTables β} :
    (handledUnless r).1 = .error ↔ r.1 ≠ 0 := by
  unfold handledUnless
  split
  · simp_all
  · simp_all

/-- **Which failed events leave the holdings as they were.** -/
theorem handleEmudev_restores_iff (d : DeviceTables β) (x : Answers) (ioProxy : β) (op : Word)
    (msg : RpcMsg) :
    ((handleEmudev x ioProxy op msg d).1 = .error →
        SameHoldings d (handleEmudev x ioProxy op msg d).2) ↔
      ¬ Strands d x ioProxy op msg := by
  unfold handleEmudev Strands
  by_cases hmmio : op = qemuOpMmioRegionConfig
  · rw [if_pos hmmio, if_pos hmmio, handledUnless_eq_error_iff]
    exact emudevMmioConfig_restores_iff d x ioProxy (msg mr1) (msg mr2) (msg mr3)
  · rw [if_neg hmmio, if_neg hmmio]
    by_cases hirq : op = qemuOpSetIrq
    · rw [if_pos hirq, handledUnless_eq_error_iff]
      simp only [hirq, true_and]
      exact emudevIrqSet_restores_iff d x ioProxy ((msg mr1).setWidth 32) ((msg mr2).setWidth 32)
    · rw [if_neg hirq]
      simp [hirq]

/-- An unknown operation on an interrupt that has no line yet registers it and is an error. -/
theorem unknown_irq_op_keeps_line :
    ¬ ∀ (d : DeviceTables Bool) (x : Answers) (ioProxy : Bool) (op : Word) (msg : RpcMsg),
      (handleEmudev x ioProxy op msg d).1 = .error →
        SameHoldings d (handleEmudev x ioProxy op msg d).2 := by
  intro h
  have hsame := h noReservation callsSucceed false qemuOpSetIrq
    (eventMsg qemuOpSetIrq 40#64 7#64 0#64) (by decide)
  have hlen : (1 : ℕ) = 0 := congrArg List.length hsame.irqs
  cases hlen

end Restores

/-! ### The calls of a configuration event -/

section Calls

variable {β σ : Type}

/-- A call of `emudev_mmio_config`. -/
inductive MmioResCall (β : Type) where
  | assign (ioProxy : β) (addr size : Word)
  | free (ioProxy : β) (addr size : Word)
  deriving DecidableEq

/-- `emudev_mmio_config` over what carries out its calls. -/
def emudevMmioConfigBy (carry : MmioResCall β → σ → ℤ × σ) (ioProxy : β)
    (addr size flags : Word) (s : σ) : ℤ × σ :=
  if flags &&& (~~~sel4MmioRegionFree).setWidth 64 ≠ 0#64 then (-1, s)
  else if flags &&& sel4MmioRegionFree.setWidth 64 ≠ 0#64 then carry (.free ioProxy addr size) s
  else carry (.assign ioProxy addr size) s

/-- A call also noted down. -/
def noted (carry : MmioResCall β → σ → ℤ × σ) (call : MmioResCall β)
    (s : σ × List (MmioResCall β)) : ℤ × σ × List (MmioResCall β) :=
  let r := carry call s.1
  (r.1, r.2, s.2 ++ [call])

variable [DecidableEq β]

/-- The call on the tables. -/
def MmioResCall.run (x : Answers) : MmioResCall β → DeviceTables β → ℤ × DeviceTables β
  | .assign ioProxy addr size, d => mmioResAssign d x ioProxy addr size
  | .free ioProxy addr size, d => mmioResFree d x ioProxy addr size

theorem emudevMmioConfig_eq_by (d : DeviceTables β) (x : Answers) (ioProxy : β)
    (addr size flags : Word) :
    emudevMmioConfig d x ioProxy addr size flags
      = emudevMmioConfigBy (MmioResCall.run x) ioProxy addr size flags d := rfl

omit [DecidableEq β] in
/-- Noting the calls down changes nothing else. -/
theorem emudevMmioConfigBy_noted (carry : MmioResCall β → σ → ℤ × σ) (ioProxy : β)
    (addr size flags : Word) (s : σ) :
    let r := emudevMmioConfigBy (noted carry) ioProxy addr size flags (s, [])
    (r.1, r.2.1) = emudevMmioConfigBy carry ioProxy addr size flags s := by
  intro r
  show ((emudevMmioConfigBy (noted carry) ioProxy addr size flags (s, [])).1,
    (emudevMmioConfigBy (noted carry) ioProxy addr size flags (s, [])).2.1) = _
  unfold emudevMmioConfigBy noted
  split
  · rfl
  · split
    · rfl
    · rfl

/-- The calls that the event makes. -/
def mmioConfigCalls (d : DeviceTables β) (x : Answers) (ioProxy : β) (msg : RpcMsg) :
    List (MmioResCall β) :=
  (emudevMmioConfigBy (noted (MmioResCall.run x)) ioProxy (msg mr1) (msg mr2) (msg mr3)
    (d, [])).2.2

/-- A bit other than `SEL4_MMIO_REGION_FREE` is set. -/
def HasOtherFlag (flags : Word) : Prop := ∃ i, i ≠ 0 ∧ flags.getLsbD i = true

/-- The one call that flags ask for. -/
def callFor (ioProxy : β) (msg : RpcMsg) : MmioResCall β :=
  if (msg mr3).getLsbD 0 then .free ioProxy (msg mr1) (msg mr2)
  else .assign ioProxy (msg mr1) (msg mr2)

theorem and_ne_zero_iff {w : ℕ} {a b : BitVec w} :
    a &&& b ≠ 0#w ↔ ∃ i, a.getLsbD i = true ∧ b.getLsbD i = true := by
  constructor
  · intro h
    by_contra hno
    apply h
    apply BitVec.eq_of_getLsbD_eq
    intro i _
    rw [BitVec.getLsbD_and, BitVec.getLsbD_zero]
    cases ha : a.getLsbD i with
    | false => rfl
    | true =>
        cases hb : b.getLsbD i with
        | false => rfl
        | true => exact absurd ⟨i, ha, hb⟩ hno
  · rintro ⟨i, ha, hb⟩ h
    have hi := congrArg (fun v => v.getLsbD i) h
    simp [ha, hb] at hi

theorem getLsbD_sel4MmioRegionFree (i : ℕ) :
    sel4MmioRegionFree.getLsbD i = decide (i = 0) := by
  rw [sel4MmioRegionFree, BitVec.getLsbD_one]
  simp

/-- `flags & SEL4_MMIO_REGION_FREE`. -/
theorem and_regionFree_iff {flags : Word} :
    flags &&& sel4MmioRegionFree.setWidth 64 ≠ 0#64 ↔ flags.getLsbD 0 = true := by
  rw [and_ne_zero_iff]
  simp only [BitVec.getLsbD_setWidth, getLsbD_sel4MmioRegionFree]
  constructor
  · rintro ⟨i, hi, hzero⟩
    simp only [Bool.and_eq_true, decide_eq_true_eq] at hzero
    rwa [hzero.2] at hi
  · intro h
    exact ⟨0, h, by decide⟩

/-- `flags & ~SEL4_MMIO_REGION_FREE`: the complement is taken in 32 bits and then widened. -/
theorem and_not_regionFree_iff {flags : Word} :
    flags &&& (~~~sel4MmioRegionFree).setWidth 64 ≠ 0#64 ↔
      ∃ i, i ≠ 0 ∧ i < 32 ∧ flags.getLsbD i = true := by
  rw [and_ne_zero_iff]
  simp only [BitVec.getLsbD_setWidth, BitVec.getLsbD_not, getLsbD_sel4MmioRegionFree]
  constructor
  · rintro ⟨i, hi, hmask⟩
    simp only [Bool.and_eq_true, decide_eq_true_eq, Bool.not_eq_true', decide_eq_false_iff_not]
      at hmask
    exact ⟨i, hmask.2.2, hmask.2.1, hi⟩
  · rintro ⟨i, hne, hlt, hi⟩
    refine ⟨i, hi, ?_⟩
    simp [hne, hlt, Nat.lt_trans hlt]

/-- What the event does with its flags. -/
theorem handleEmudev_mmioConfig (d : DeviceTables β) (x : Answers) (ioProxy : β) (msg : RpcMsg) :
    ((∃ i, i ≠ 0 ∧ i < 32 ∧ (msg mr3).getLsbD i = true) ∧
        handleEmudev x ioProxy qemuOpMmioRegionConfig msg d = (.error, d) ∧
        mmioConfigCalls d x ioProxy msg = []) ∨
      ((¬ ∃ i, i ≠ 0 ∧ i < 32 ∧ (msg mr3).getLsbD i = true) ∧
        handleEmudev x ioProxy qemuOpMmioRegionConfig msg d
          = handledUnless ((callFor ioProxy msg).run x d) ∧
        mmioConfigCalls d x ioProxy msg = [callFor ioProxy msg]) := by
  unfold handleEmudev mmioConfigCalls callFor
  rw [if_pos rfl, emudevMmioConfig_eq_by]
  unfold emudevMmioConfigBy
  by_cases hunknown : msg mr3 &&& (~~~sel4MmioRegionFree).setWidth 64 ≠ 0#64
  · rw [if_pos hunknown, if_pos hunknown]
    exact Or.inl ⟨and_not_regionFree_iff.mp hunknown, rfl, rfl⟩
  · rw [if_neg hunknown, if_neg hunknown]
    refine Or.inr ⟨fun h => hunknown (and_not_regionFree_iff.mpr h), ?_⟩
    by_cases hfree : msg mr3 &&& sel4MmioRegionFree.setWidth 64 ≠ 0#64
    · rw [if_pos hfree, if_pos hfree, if_pos (and_regionFree_iff.mp hfree)]
      exact ⟨rfl, rfl⟩
    · rw [if_neg hfree, if_neg hfree, if_neg (fun h => hfree (and_regionFree_iff.mpr h))]
      exact ⟨rfl, rfl⟩

/-- A flag that is not known is an error and nothing is called; with known flags the event is the
one call that they ask for. -/
def ChecksFlags (d : DeviceTables β) (x : Answers) (ioProxy : β) (msg : RpcMsg) : Prop :=
  (HasOtherFlag (msg mr3) →
      handleEmudev x ioProxy qemuOpMmioRegionConfig msg d = (.error, d) ∧
        mmioConfigCalls d x ioProxy msg = []) ∧
    (¬ HasOtherFlag (msg mr3) →
      handleEmudev x ioProxy qemuOpMmioRegionConfig msg d
          = handledUnless ((callFor ioProxy msg).run x d) ∧
        mmioConfigCalls d x ioProxy msg = [callFor ioProxy msg])

/-- **The flags that are checked.**  A flag from bit 32 on is refused only together with one of the
bits 1 to 31. -/
theorem mmioConfig_calls_iff (d : DeviceTables β) (x : Answers) (ioProxy : β) (msg : RpcMsg) :
    ChecksFlags d x ioProxy msg ↔
      (∃ i, i ≠ 0 ∧ i < 32 ∧ (msg mr3).getLsbD i = true) ∨
        ∀ i, 32 ≤ i → (msg mr3).getLsbD i = false := by
  unfold ChecksFlags
  rcases handleEmudev_mmioConfig d x ioProxy msg with
    ⟨hlow, hevent, hcalls⟩ | ⟨hlow, hevent, hcalls⟩
  · have hother : HasOtherFlag (msg mr3) := by
      obtain ⟨i, hne, -, hi⟩ := hlow
      exact ⟨i, hne, hi⟩
    constructor
    · intro _
      exact Or.inl hlow
    · intro _
      exact ⟨fun _ => ⟨hevent, hcalls⟩, fun h => absurd hother h⟩
  · constructor
    · rintro ⟨hrefused, -⟩
      apply Or.inr
      intro i hi
      by_contra hset
      have hother : HasOtherFlag (msg mr3) := ⟨i, by omega, by simpa using hset⟩
      have hnone := (hrefused hother).2
      rw [hcalls] at hnone
      cases hnone
    · rintro (h | hhigh)
      · exact absurd h hlow
      · refine ⟨?_, fun _ => ⟨hevent, hcalls⟩⟩
        rintro ⟨i, hne, hi⟩
        by_cases h32 : i < 32
        · exact absurd ⟨i, hne, h32, hi⟩ hlow
        · rw [hhigh i (Nat.le_of_not_lt h32)] at hi
          cases hi

/-- Bit 32 alone: the region is assigned. -/
theorem high_flag_assigns :
    ¬ ∀ (d : DeviceTables Bool) (x : Answers) (ioProxy : Bool) (msg : RpcMsg),
      ChecksFlags d x ioProxy msg := by
  intro h
  have hrefused := (h noReservation callsSucceed false
    (eventMsg qemuOpMmioRegionConfig 0x1000#64 0x100#64 0x100000000#64)).1
      ⟨32, by decide, by decide⟩
  have hcalls : [MmioResCall.assign false 0x1000#64 0x100#64] = [] := hrefused.2
  cases hcalls

end Calls

end TiiSel4Vm.Devices
