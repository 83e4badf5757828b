import TiiSel4Vm.Vmm.Devices

/-!
# Message-signalled interrupts

The GICv2m frame of a guest has a range of SPIs.  A register tells the guest which, a write of
another pulses one, and the VMM injects them by number.

* `v2mReadFault`, `v2mWriteFault`, `v2mIrqValid`, `v2mInjectIrq`, `v2mInit` — `gicv2m.c`;
* `msiIrqSet` — the events of the backends;
* `v2m_spis_agree` — the three have the same range and the same lines.
-/

namespace TiiSel4Vm.Msi

open TiiSel4Vm.RpcQueue
open TiiSel4Vm.Devices (IrqLine Vm RpcmsgRc irqLinePulse rpcIrqClr rpcIrqSet rpcIrqPulse)

/-! ### The frame -/

/-- `GICV2M_IRQ_MAX`. -/
abbrev gicv2mIrqMax : ℕ := 128

/-- `V2M_MSI_TYPER`. -/
def v2mMsiTyper : Word := 0x008#64

/-- `V2M_MSI_SETSPI_NS`. -/
def v2mMsiSetspiNs : Word := 0x040#64

/-- `V2M_MSI_IIDR`. -/
def v2mMsiIidr : Word := 0xfcc#64

/-- `V2M_IIDR0`. -/
def v2mIidr0 : Word := 0xfd0#64

/-- `V2M_IIDR11`. -/
def v2mIidr11 : Word := 0xffc#64

/-- `gicv2m_t`; only the first `GICV2M_IRQ_MAX` of `irq` are there. -/
structure Gicv2m (γ : Type) where
  base : Word
  size : Word
  irq : ℕ → IrqLine γ
  irqBase : BitVec 32
  numIrq : BitVec 32

/-- The lines pulsed, by their place in the frame, and the calls of `vm_set_irq_level`. -/
structure PulseLog where
  lines : List ℕ
  levels : List (BitVec 32 × Bool)
  deriving DecidableEq

/-- What `vm_set_irq_level` answers. -/
abbrev SetIrqLevel := BitVec 32 → Bool → ℤ

section Frame

variable {γ : Type}

/-- `vm_set_irq_level`. -/
def vmSetIrqLevel (x : SetIrqLevel) (irq : BitVec 32) (active : Bool) (log : PulseLog) :
    ℤ × PulseLog :=
  (x irq active, { log with levels := log.levels ++ [(irq, active)] })

/-- `irq_line_pulse` of `s->irq[i]`. -/
def pulseIrq (x : SetIrqLevel) (s : Gicv2m γ) (i : ℕ) (log : PulseLog) : ℤ × PulseLog :=
  irqLinePulse (vmSetIrqLevel x) (s.irq i) { log with lines := log.lines ++ [i] }

/-- `v2m_read_fault`; `none` is `false`. -/
def v2mReadFault (s : Gicv2m γ) (paddr : Word) (len : ℕ) : Option (BitVec 32) :=
  if len ≠ 4 then none
  else if paddr - s.base = v2mMsiTyper then some ((s.irqBase <<< 16) ||| s.numIrq)
  else if paddr - s.base = v2mMsiIidr then some (0x53#32 <<< 20)
  else if v2mIidr0 ≤ paddr - s.base ∧ paddr - s.base ≤ v2mIidr11 then some 0#32
  else none

/-- `v2m_write_fault`. -/
def v2mWriteFault (x : SetIrqLevel) (s : Gicv2m γ) (paddr : Word) (len : ℕ) (data : BitVec 32)
    (log : PulseLog) : Bool × PulseLog :=
  if len ≠ 2 ∧ len ≠ 4 then (false, log)
  else if paddr - s.base = v2mMsiSetspiNs then
    let spi := (data &&& 0x3ff#32) - s.irqBase
    -- `spi >= 0` holds of every `uint32_t`
    if 0#32 ≤ spi ∧ spi < s.numIrq then
      let r := pulseIrq x s spi.toNat log
      (if r.1 ≠ 0 then false else true, r.2)
    else (true, log)
  else (false, log)

/-- `v2m_irq_valid`. -/
def v2mIrqValid (s : Gicv2m γ) (irq : BitVec 32) : Bool :=
  s.irqBase ≤ irq ∧ irq < s.irqBase + s.numIrq

/-- `v2m_inject_irq`. -/
def v2mInjectIrq (x : SetIrqLevel) (s : Gicv2m γ) (irq : BitVec 32) (log : PulseLog) :
    ℤ × PulseLog :=
  if !v2mIrqValid s irq then (-1, log) else pulseIrq x s (irq - s.irqBase).toNat log

/-- What the calls of `v2m_init` answer. -/
structure V2mInitAnswers where
  vmRegisterIrq : BitVec 32 → ℤ
  vmReserveMemoryAt : Bool

/-- `irq_line_init` of `s->irq[i]`; the cookie is `s` itself. -/
def irqLineInit (y : V2mInitAnswers) (cookie : γ) (irq : BitVec 32) (i : ℕ) (s : Gicv2m γ)
    (vm : Vm) : ℤ × Gicv2m γ × Vm :=
  let r := vm.registerIrq (y.vmRegisterIrq irq) irq
  (if r.1 ≠ 0 then -1 else 0, { s with irq := Function.update s.irq i ⟨irq, cookie⟩ }, r.2)

/-- The loop of `v2m_init`. -/
def v2mInitLoop (y : V2mInitAnswers) (cookie : γ) : List ℕ → Gicv2m γ → Vm → ℤ × Gicv2m γ × Vm
  | [], s, vm => (0, s, vm)
  | i :: is, s, vm =>
      let r := irqLineInit y cookie (s.irqBase + BitVec.ofNat 32 i) i s vm
      if r.1 ≠ 0 then r else v2mInitLoop y cookie is r.2.1 r.2.2

/-- `v2m_init`. -/
def v2mInit (y : V2mInitAnswers) (cookie : γ) (s : Gicv2m γ) (vm : Vm) : ℤ × Gicv2m γ × Vm :=
  if gicv2mIrqMax < s.numIrq.toNat then (-1, s, vm)
  else if 1020#32 < s.irqBase + s.numIrq then (-1, s, vm)
  else
    let r := v2mInitLoop y cookie (List.range s.numIrq.toNat) s vm
    if r.1 ≠ 0 then r
    else
      let res := r.2.2.reserve y.vmReserveMemoryAt r.2.1.base r.2.1.size
      (if res.1.isNone then -1 else 0, r.2.1, res.2)

/-- `msi_irq_set`. -/
def msiIrqSet (x : SetIrqLevel) (v2m : Gicv2m γ) (irq op : BitVec 32) (log : PulseLog) :
    RpcmsgRc × PulseLog :=
  if !v2mIrqValid v2m irq then (.none, log)
  else if op = rpcIrqSet ∨ op = rpcIrqPulse then
    let r := v2mInjectIrq x v2m irq log
    (if r.1 ≠ 0 then .error else .handled, r.2)
  else if op = rpcIrqClr then (.handled, log)
  else (.error, log)

/-! ### The range -/

/-- The ranges that `v2m_init` checks. -/
structure InRange (s : Gicv2m γ) : Prop where
  num : s.numIrq.toNat ≤ gicv2mIrqMax
  sum : s.irqBase.toNat + s.numIrq.toNat ≤ 1020

/-- The SPIs that a guest reads from `V2M_MSI_TYPER`: the base is in the bits from 16 on and the
count in the low ten. -/
def decodedSpis (typer : BitVec 32) : Set (BitVec 32) :=
  {spi | (typer >>> 16).toNat ≤ spi.toNat ∧
    spi.toNat < (typer >>> 16).toNat + (typer &&& 0x3ff#32).toNat}

theorem v2mReadFault_typer (s : Gicv2m γ) :
    v2mReadFault s (s.base + v2mMsiTyper) 4 = some ((s.irqBase <<< 16) ||| s.numIrq) := by
  have hoff : s.base + v2mMsiTyper - s.base = v2mMsiTyper := by
    rw [BitVec.add_comm, BitVec.add_sub_cancel]
  rw [v2mReadFault, if_neg (not_not_intro rfl), hoff, if_pos rfl]

theorem and_3ff_toNat (data : BitVec 32) : (data &&& 0x3ff#32).toNat = data.toNat % 1024 := by
  rw [BitVec.toNat_and]
  exact Nat.and_two_pow_sub_one_eq_mod data.toNat 10

/-- The register is the sum of its two parts. -/
theorem typer_toNat {s : Gicv2m γ} (h : InRange s) :
    ((s.irqBase <<< 16) ||| s.numIrq).toNat = s.irqBase.toNat * 2 ^ 16 + s.numIrq.toNat := by
  have hsum := h.sum
  rw [BitVec.toNat_or, BitVec.toNat_shiftLeft, Nat.shiftLeft_eq,
    Nat.mod_eq_of_lt (by omega : s.irqBase.toNat * 2 ^ 16 < 2 ^ 32), Nat.mul_comm]
  exact (Nat.two_pow_add_eq_or_of_lt (by omega) s.irqBase.toNat).symm

theorem mem_decodedSpis_iff {s : Gicv2m γ} (h : InRange s) (spi : BitVec 32) :
    spi ∈ decodedSpis ((s.irqBase <<< 16) ||| s.numIrq) ↔
      s.irqBase.toNat ≤ spi.toNat ∧ spi.toNat < s.irqBase.toNat + s.numIrq.toNat := by
  have hsum := h.sum
  have hbase : (((s.irqBase <<< 16) ||| s.numIrq) >>> 16).toNat = s.irqBase.toNat := by
    rw [BitVec.toNat_ushiftRight, typer_toNat h, Nat.shiftRight_eq_div_pow]
    omega
  have hcount : (((s.irqBase <<< 16) ||| s.numIrq) &&& 0x3ff#32).toNat = s.numIrq.toNat := by
    rw [and_3ff_toNat, typer_toNat h]
    omega
  show _ ≤ spi.toNat ∧ spi.toNat < _ ↔ _
  rw [hbase, hcount]

theorem v2mIrqValid_iff {s : Gicv2m γ} (h : InRange s) (irq : BitVec 32) :
    v2mIrqValid s irq = true ↔
      s.irqBase.toNat ≤ irq.toNat ∧ irq.toNat < s.irqBase.toNat + s.numIrq.toNat := by
  have hsum := h.sum
  have hadd : (s.irqBase + s.numIrq).toNat = s.irqBase.toNat + s.numIrq.toNat := by
    rw [BitVec.toNat_add]
    omega
  rw [v2mIrqValid, decide_eq_true_eq, BitVec.le_def, BitVec.lt_def, hadd]

/-- The subtraction wraps below the base, to more than any count. -/
theorem spi_sub_lt_iff {s : Gicv2m γ} (h : InRange s) {k : BitVec 32} (hk : k.toNat < 1024) :
    k - s.irqBase < s.numIrq ↔
      s.irqBase.toNat ≤ k.toNat ∧ k.toNat < s.irqBase.toNat + s.numIrq.toNat := by
  have hsum := h.sum
  have hnum := h.num
  rw [BitVec.lt_def, BitVec.toNat_sub]
  omega

theorem sub_base_toNat {s : Gicv2m γ} {k : BitVec 32} (h : s.irqBase.toNat ≤ k.toNat) :
    (k - s.irqBase).toNat = k.toNat - s.irqBase.toNat := by
  have hk := k.isLt
  rw [BitVec.toNat_sub]
  omega

/-! ### The lines -/

/-- A pulse of the interrupt `irq` at place `i` of the frame: its level is raised and, once that has
succeeded, lowered. -/
def PulseLog.pulsed (log : PulseLog) (x : SetIrqLevel) (i : ℕ) (irq : BitVec 32) : PulseLog where
  lines := log.lines ++ [i]
  levels := log.levels ++ (irq, true) :: if x irq true = 0 then [(irq, false)] else []

/-- A pulse fails with the first call that does. -/
def pulseError (x : SetIrqLevel) (irq : BitVec 32) : ℤ :=
  if x irq true = 0 then x irq false else x irq true

theorem pulseIrq_eq (x : SetIrqLevel) (s : Gicv2m γ) (i : ℕ) (log : PulseLog) :
    pulseIrq x s i log = (pulseError x (s.irq i).irq, log.pulsed x i (s.irq i).irq) := by
  unfold pulseIrq irqLinePulse vmSetIrqLevel pulseError PulseLog.pulsed
  by_cases hup : x (s.irq i).irq true = 0
  · simp [hup]
  · simp [hup]

/-- What a write of `V2M_MSI_SETSPI_NS` and an injection do, against the SPIs that the guest reads:
both pulse the one line of the SPI, and nothing for any other number. -/
structure SpisAgree (x : SetIrqLevel) (s : Gicv2m γ) (typer : BitVec 32) : Prop where
  valid : ∀ irq, v2mIrqValid s irq = true ↔ irq ∈ decodedSpis typer
  inside : ∀ irq ∈ decodedSpis typer, ∃ i, i < s.numIrq.toNat ∧ s.irqBase.toNat + i = irq.toNat ∧
    ∀ log, v2mInjectIrq x s irq log = pulseIrq x s i log ∧
      pulseIrq x s i log = (pulseError x (s.irq i).irq, log.pulsed x i (s.irq i).irq) ∧
      ∀ len, len = 2 ∨ len = 4 → ∀ data : BitVec 32, data.toNat % 1024 = irq.toNat →
        v2mWriteFault x s (s.base + v2mMsiSetspiNs) len data log
          = (decide ((pulseIrq x s i log).1 = 0), (pulseIrq x s i log).2)
  outside : ∀ irq, irq ∉ decodedSpis typer → ∀ log, v2mInjectIrq x s irq log = (-1, log) ∧
    ∀ len, len = 2 ∨ len = 4 → ∀ data : BitVec 32, data.toNat % 1024 = irq.toNat →
      v2mWriteFault x s (s.base + v2mMsiSetspiNs) len data log = (true, log)

/-- A write of `V2M_MSI_SETSPI_NS`. -/
theorem v2mWriteFault_setspi (x : SetIrqLevel) {s : Gicv2m γ} (h : InRange s) {len : ℕ}
    (hlen : len = 2 ∨ len = 4) {data irq : BitVec 32} (hdata : data.toNat % 1024 = irq.toNat)
    (log : PulseLog) :
    v2mWriteFault x s (s.base + v2mMsiSetspiNs) len data log
      = if s.irqBase.toNat ≤ irq.toNat ∧ irq.toNat < s.irqBase.toNat + s.numIrq.toNat then
          (decide ((pulseIrq x s (irq.toNat - s.irqBase.toNat) log).1 = 0),
            (pulseIrq x s (irq.toNat - s.irqBase.toNat) log).2)
        else (true, log) := by
  have hoff : s.base + v2mMsiSetspiNs - s.base = v2mMsiSetspiNs := by
    rw [BitVec.add_comm, BitVec.add_sub_cancel]
  have hspi : data &&& 0x3ff#32 = irq := by
    apply BitVec.eq_of_toNat_eq
    rw [and_3ff_toNat, hdata]
  have hirq : irq.toNat < 1024 := by
    rw [← hdata]
    exact Nat.mod_lt _ (by decide)
  have hwidth : ¬ (len ≠ 2 ∧ len ≠ 4) := by omega
  rw [v2mWriteFault, if_neg hwidth, hoff, if_pos rfl, hspi]
  have hzero : 0#32 ≤ irq - s.irqBase := Nat.zero_le _
  simp only [hzero, true_and, spi_sub_lt_iff h hirq]
  by_cases hin : s.irqBase.toNat ≤ irq.toNat ∧ irq.toNat < s.irqBase.toNat + s.numIrq.toNat
  · rw [if_pos hin, if_pos hin, sub_base_toNat hin.1]
    by_cases herr : (pulseIrq x s (irq.toNat - s.irqBase.toNat) log).1 = 0
    · simp [herr]
    · simp [herr]
  · rw [if_neg hin, if_neg hin]

theorem spisAgree (x : SetIrqLevel) {s : Gicv2m γ} (h : InRange s) :
    SpisAgree x s ((s.irqBase <<< 16) ||| s.numIrq) := by
  have hvalid : ∀ irq, v2mIrqValid s irq = true ↔
      irq ∈ decodedSpis ((s.irqBase <<< 16) ||| s.numIrq) := by
    intro irq
    rw [v2mIrqValid_iff h, mem_decodedSpis_iff h]
  refine ⟨hvalid, ?_, ?_⟩
  · intro irq hirq
    have hin := (mem_decodedSpis_iff h irq).mp hirq
    refine ⟨irq.toNat - s.irqBase.toNat, by omega, by omega, ?_⟩
    intro log
    refine ⟨?_, pulseIrq_eq x s _ log, ?_⟩
    · rw [v2mInjectIrq, (hvalid irq).mpr hirq, sub_base_toNat hin.1]
      rfl
    · intro len hlen data hdata
      rw [v2mWriteFault_setspi x h hlen hdata log, if_pos hin]
  · intro irq hirq log
    have hout := fun hin => hirq ((mem_decodedSpis_iff h irq).mpr hin)
    have hinvalid : v2mIrqValid s irq = false := by
      rw [← Bool.not_eq_true, hvalid]
      exact hirq
    constructor
    · rw [v2mInjectIrq, hinvalid]
      rfl
    · intro len hlen data hdata
      rw [v2mWriteFault_setspi x h hlen hdata log, if_neg hout]

/-! ### Initialisation -/

/-- The loop sets up the lines of its indices and registers their interrupts in turn. -/
theorem v2mInitLoop_spec (y : V2mInitAnswers) (cookie : γ) (is : List ℕ) (s : Gicv2m γ) (vm : Vm)
    (h : (v2mInitLoop y cookie is s vm).1 = 0) :
    (v2mInitLoop y cookie is s vm).2.1.base = s.base ∧
      (v2mInitLoop y cookie is s vm).2.1.irqBase = s.irqBase ∧
      (v2mInitLoop y cookie is s vm).2.1.numIrq = s.numIrq ∧
      (∀ j, (v2mInitLoop y cookie is s vm).2.1.irq j
        = if j ∈ is then ⟨s.irqBase + BitVec.ofNat 32 j, cookie⟩ else s.irq j) ∧
      (v2mInitLoop y cookie is s vm).2.2.registered
        = vm.registered ++ is.map fun i => s.irqBase + BitVec.ofNat 32 i := by
  induction is generalizing s vm with
  | nil => exact ⟨rfl, rfl, rfl, fun j => by simp [v2mInitLoop], by simp [v2mInitLoop]⟩
  | cons i is ih =>
      unfold v2mInitLoop at h ⊢
      by_cases herr : (irqLineInit y cookie (s.irqBase + BitVec.ofNat 32 i) i s vm).1 ≠ 0
      · rw [if_pos herr] at h
        exact absurd h herr
      · rw [if_neg herr] at h ⊢
        have hreg : y.vmRegisterIrq (s.irqBase + BitVec.ofNat 32 i) = 0 := by
          by_contra hne
          apply herr
          simp [irqLineInit, Vm.registerIrq, hne]
        obtain ⟨hbase, hirqBase, hnum, hline, hregistered⟩ := ih _ _ h
        refine ⟨hbase, hirqBase, hnum, ?_, ?_⟩
        · intro j
          rw [hline]
          show (if j ∈ is then _ else Function.update s.irq i _ j) = _
          by_cases hj : j ∈ is
          · rw [if_pos hj, if_pos (List.mem_cons_of_mem i hj)]
            rfl
          · rw [if_neg hj]
            by_cases hji : j = i
            · rw [hji, Function.update_self, if_pos List.mem_cons_self]
            · rw [Function.update_of_ne hji, if_neg (by simp [hj, hji])]
        · rw [hregistered]
          show (vm.registerIrq (y.vmRegisterIrq _) _).2.registered ++ _ = _
          rw [hreg, List.map_cons, List.append_cons]
          rfl

/-- What a successful `v2m_init` leaves: the frame has the same range, each of its lines is that of
its own SPI, and these are registered with the VM. -/
structure Initialised (cookie : γ) (s : Gicv2m γ) (vm : Vm) (s' : Gicv2m γ) (vm' : Vm) : Prop where
  range : InRange s'
  irqBase : s'.irqBase = s.irqBase
  numIrq : s'.numIrq = s.numIrq
  line : ∀ i < s'.numIrq.toNat, ∀ irq : BitVec 32, s'.irqBase.toNat + i = irq.toNat →
    s'.irq i = ⟨irq, cookie⟩
  registered : vm'.registered
    = vm.registered ++ (List.range s.numIrq.toNat).map fun i => s.irqBase + BitVec.ofNat 32 i

theorem v2mInit_initialised {y : V2mInitAnswers} {cookie : γ} {s s' : Gicv2m γ} {vm vm' : Vm}
    (h : InRange s) (hinit : v2mInit y cookie s vm = (0, s', vm')) :
    Initialised cookie s vm s' vm' := by
  unfold v2mInit at hinit
  have hnum := h.num
  have hsum := h.sum
  have hadd : ¬ 1020#32 < s.irqBase + s.numIrq := by
    rw [BitVec.lt_def, BitVec.toNat_add]
    have hlit : (1020#32 : BitVec 32).toNat = 1020 := rfl
    omega
  rw [if_neg (Nat.not_lt.mpr hnum), if_neg hadd] at hinit
  by_cases herr : (v2mInitLoop y cookie (List.range s.numIrq.toNat) s vm).1 = 0
  · obtain ⟨-, hirqBase, hnumIrq, hline, hregistered⟩ :=
      v2mInitLoop_spec y cookie (List.range s.numIrq.toNat) s vm herr
    simp only [herr, ne_eq, not_true_eq_false, if_false, Prod.mk.injEq] at hinit
    obtain ⟨-, rfl, rfl⟩ := hinit
    refine ⟨⟨by rw [hnumIrq]; exact hnum, by rw [hirqBase, hnumIrq]; exact hsum⟩, hirqBase, hnumIrq,
      ?_, ?_⟩
    · intro i hi irq hirq
      rw [hnumIrq] at hi
      rw [hirqBase] at hirq
      rw [hline, if_pos (List.mem_range.mpr hi)]
      congr 1
      apply BitVec.eq_of_toNat_eq
      rw [BitVec.toNat_add, BitVec.toNat_ofNat]
      omega
    · rw [← hregistered]
      unfold Vm.reserve
      split
      · rfl
      · rfl
  · simp only [herr, ne_eq, not_false_eq_true, if_true] at hinit
    exact absurd (congrArg Prod.fst hinit) herr

/-! ### Events of the backends -/

/-- An event pulses the line of its own SPI, unless it clears it. -/
theorem msiIrqSet_lines (x : SetIrqLevel) {s : Gicv2m γ} (h : InRange s) (irq op : BitVec 32)
    (log : PulseLog) :
    (msiIrqSet x s irq op log).2.lines = log.lines ++
      if v2mIrqValid s irq = true ∧ (op = rpcIrqSet ∨ op = rpcIrqPulse)
      then [irq.toNat - s.irqBase.toNat] else [] := by
  unfold msiIrqSet v2mInjectIrq
  cases hvalid : v2mIrqValid s irq with
  | false => simp
  | true =>
      have hin := (v2mIrqValid_iff h irq).mp hvalid
      by_cases hop : op = rpcIrqSet ∨ op = rpcIrqPulse
      · simp [hop, pulseIrq_eq, PulseLog.pulsed, sub_base_toNat hin.1]
      · simp only [hop, Bool.not_true, Bool.false_eq_true, if_false, and_false, List.append_nil]
        split
        · rfl
        · rfl

/-- **One range of SPIs.**  The guest reads the SPIs that a write pulses and that can be injected,
and after `v2m_init` both pulse the line registered for the SPI itself. -/
theorem v2m_spis_agree (x : SetIrqLevel) {s : Gicv2m γ} (h : InRange s) :
    (∃ typer, v2mReadFault s (s.base + v2mMsiTyper) 4 = some typer ∧ SpisAgree x s typer) ∧
      ∀ (y : V2mInitAnswers) (cookie : γ) (vm : Vm) (s' : Gicv2m γ) (vm' : Vm),
        v2mInit y cookie s vm = (0, s', vm') →
          Initialised cookie s vm s' vm' ∧
            ∃ typer, v2mReadFault s' (s'.base + v2mMsiTyper) 4 = some typer ∧
              SpisAgree x s' typer := by
  constructor
  · exact ⟨_, v2mReadFault_typer s, spisAgree x h⟩
  · intro y cookie vm s' vm' hinit
    have hs' := v2mInit_initialised h hinit
    exact ⟨hs', _, v2mReadFault_typer s', spisAgree x hs'.range⟩

end Frame

/-- The frame of the QEMU virtual platform. -/
def virtV2m : Gicv2m Unit where
  base := 0x08020000#64
  size := 0x1000#64
  irq := fun _ => ⟨0#32, ()⟩
  irqBase := 96#32
  numIrq := 32#32

/-- Its 32 lines after an initialisation in which every call succeeds. -/
theorem v2m_spis_agree_virt :
    ∃ s' vm', v2mInit ⟨fun _ => 0, true⟩ () virtV2m ⟨[], 0, [], fun _ => false⟩ = (0, s', vm') ∧
      Initialised () virtV2m ⟨[], 0, [], fun _ => false⟩ s' vm' ∧
      ∃ typer, v2mReadFault s' (s'.base + v2mMsiTyper) 4 = some typer ∧
        SpisAgree (fun _ _ => 0) s' typer := by
  have hrange : InRange virtV2m := ⟨by decide, by decide⟩
  have hzero : (v2mInit ⟨fun _ => 0, true⟩ () virtV2m ⟨[], 0, [], fun _ => false⟩).1 = 0 := by
    decide
  refine ⟨_, _, Prod.ext hzero rfl, ?_⟩
  exact (v2m_spis_agree (fun _ _ => 0) hrange).2 _ _ _ _ _ (Prod.ext hzero rfl)

end TiiSel4Vm.Msi
