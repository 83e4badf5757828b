import TiiSel4Vm.Lib.Transition
import TiiSel4Vm.Vmm.Devices

/-!
# Shared interrupt lines

A shared line keeps a set of active sources in 64 bits and drives the interrupt controller when the
set becomes empty or stops being so.  The masks are made from an `int`, so that the mask of source
31 is sign-extended over the sources above it.

* `line_calls` — the sources up to 30 are independent, and the level is the OR of the sources;
* `sign_extension_spills` — setting source 31 sets the sources above it;
* `change_failure` — a call that fails to drive the controller has changed the sources.
-/

namespace TiiSel4Vm.Devices

open TiiSel4Vm.Transition TiiSel4Vm.RpcQueue

/-! ### The masks -/

theorem getLsbD_oneShl {x : Answers} {source : ℕ} (h : source < 32) (j : ℕ) :
    (oneShl x source).getLsbD j = decide (j = source) := by
  rw [oneShl, if_pos h, BitVec.getLsbD_shiftLeft, BitVec.getLsbD_one]
  by_cases hj : j = source
  · subst hj
    simp [h]
  · by_cases hlt : j < source
    · simp [hlt, hj]
    · have hpos : ¬ j - source = 0 := by omega
      simp [hj, hpos]

theorem msb_oneShl {x : Answers} {source : ℕ} (h : source < 32) :
    (oneShl x source).msb = decide (source = 31) := by
  rw [BitVec.msb_eq_getLsbD_last, getLsbD_oneShl h]
  by_cases hs : source = 31
  · simp [hs]
  · simp [hs, Ne.symm hs]

/-- The bits of the sign-extended mask. -/
theorem getLsbD_mask_signExtend {x : Answers} {source j : ℕ} (h : source < 32) (hj : j < 64) :
    ((oneShl x source).signExtend 64).getLsbD j
      = decide (j = source ∨ (source = 31 ∧ 31 ≤ j)) := by
  rw [BitVec.getLsbD_signExtend, msb_oneShl h, getLsbD_oneShl h]
  by_cases hlt : j < 32
  · by_cases he : j = source
    · subst he
      simp [hlt, hj]
    · have hno : ¬ (source = 31 ∧ 31 ≤ j) := by omega
      simp [hlt, he, hno]
  · have hne : ¬ j = source := by omega
    have hge : 31 ≤ j := by omega
    simp [hlt, hj, hne, hge]

/-- **The sources after a change** whose mask has no undefined shift. -/
theorem getLsbD_changedSources {x : Answers} {sources : Word} {source j : ℕ} (active : Bool)
    (h : source < 32) (hj : j < 64) :
    (changedSources x sources source active).getLsbD j
      = if j = source ∨ (source = 31 ∧ 31 ≤ j) then active else sources.getLsbD j := by
  unfold changedSources
  cases active with
  | true =>
      rw [if_pos rfl, BitVec.getLsbD_or, getLsbD_mask_signExtend h hj]
      by_cases hm : j = source ∨ (source = 31 ∧ 31 ≤ j)
      · simp [hm]
      · simp [hm]
  | false =>
      rw [if_neg Bool.false_ne_true, BitVec.signExtend_not (by decide), BitVec.getLsbD_and,
        BitVec.getLsbD_not, getLsbD_mask_signExtend h hj]
      by_cases hm : j = source ∨ (source = 31 ∧ 31 ≤ j)
      · simp [hm]
      · simp [hm, hj]

/-- A word is nonzero exactly when one of its bits is set. -/
theorem ne_zero_iff_exists_bit {w : Word} : w ≠ 0#64 ↔ ∃ j < 64, w.getLsbD j = true := by
  constructor
  · intro hne
    by_contra hnone
    apply hne
    apply BitVec.eq_of_getLsbD_eq
    intro j hj
    rw [BitVec.getLsbD_zero]
    by_contra hbit
    exact hnone ⟨j, hj, by simpa using hbit⟩
  · rintro ⟨j, -, hbit⟩ hzero
    rw [hzero, BitVec.getLsbD_zero] at hbit
    cases hbit

/-! ### One call -/

/-- The line's level is the OR of its sources. -/
def Driven (vm : Vm) (line : SharedIrqLine) : Prop :=
  vm.level line.irq = true ↔ line.sources ≠ 0#64

/-- The change makes the first source active or the last one inactive. -/
def Drives (x : Answers) (sources : Word) (source : ℕ) (active : Bool) : Prop :=
  if active then sources = 0#64 ∧ oneShl x source ≠ 0#32
  else sources ≠ 0#64 ∧ sources &&& (~~~(oneShl x source)).signExtend 64 = 0#64

theorem signExtend_ne_zero_iff {v : BitVec 32} : v.signExtend 64 ≠ 0#64 ↔ v ≠ 0#32 := by
  constructor
  · intro h hv
    apply h
    rw [hv]
    rfl
  · intro h hv
    apply h
    apply BitVec.eq_of_getLsbD_eq
    intro j hj
    have hbit : (v.signExtend 64).getLsbD j = false := by
      rw [hv, BitVec.getLsbD_zero]
    rw [BitVec.getLsbD_signExtend] at hbit
    rw [BitVec.getLsbD_zero]
    simpa [hj, Nat.lt_trans hj (by decide : 32 < 64)] using hbit

/-- A driving change ends with the level it commands. -/
theorem changedSources_of_drives {x : Answers} {sources : Word} {source : ℕ} {active : Bool}
    (h : Drives x sources source active) :
    (sources ≠ 0#64 ↔ active = false) ∧
      (changedSources x sources source active ≠ 0#64 ↔ active = true) := by
  unfold Drives at h
  unfold changedSources
  cases active with
  | true =>
      rw [if_pos rfl] at h ⊢
      obtain ⟨hzero, hbit⟩ := h
      rw [hzero, BitVec.zero_or]
      exact ⟨by simp, by simpa using signExtend_ne_zero_iff.mpr hbit⟩
  | false =>
      rw [if_neg Bool.false_ne_true] at h ⊢
      obtain ⟨hne, hzero⟩ := h
      exact ⟨by simpa using hne, by simpa using hzero⟩

/-- Any other change leaves it as it is whether the line has a source. -/
theorem changedSources_of_not_drives {x : Answers} {sources : Word} {source : ℕ} {active : Bool}
    (h : ¬ Drives x sources source active) :
    changedSources x sources source active ≠ 0#64 ↔ sources ≠ 0#64 := by
  unfold Drives at h
  unfold changedSources
  cases active with
  | true =>
      rw [if_pos rfl] at h ⊢
      by_cases hzero : sources = 0#64
      · have hbit : oneShl x source = 0#32 := by
          by_contra hbit
          exact h ⟨hzero, hbit⟩
        rw [hzero, hbit]
        simp
      · obtain ⟨j, hj, hset⟩ := ne_zero_iff_exists_bit.mp hzero
        have hor : sources ||| (oneShl x source).signExtend 64 ≠ 0#64 := by
          apply ne_zero_iff_exists_bit.mpr
          exact ⟨j, hj, by rw [BitVec.getLsbD_or, hset, Bool.true_or]⟩
        exact ⟨fun _ => hzero, fun _ => hor⟩
  | false =>
      rw [if_neg Bool.false_ne_true] at h ⊢
      by_cases hzero : sources = 0#64
      · rw [hzero, BitVec.zero_and]
      · have hand : sources &&& (~~~(oneShl x source)).signExtend 64 ≠ 0#64 := by
          intro hand
          exact h ⟨hzero, hand⟩
        exact ⟨fun _ => hzero, fun _ => hand⟩

/-- What a call does. -/
theorem sharedIrqLineChange_cases (vm : Vm) (x : Answers) (line : SharedIrqLine) (source : ℕ)
    (active : Bool) :
    (64 ≤ source ∧ sharedIrqLineChange vm x line source active = (-1, vm, line)) ∨
      (source < 64 ∧ ¬ Drives x line.sources source active ∧
        sharedIrqLineChange vm x line source active
          = (0, vm, ⟨line.irq, changedSources x line.sources source active⟩)) ∨
      (source < 64 ∧ Drives x line.sources source active ∧
        sharedIrqLineChange vm x line source active
          = (x.vmSetIrqLevel active, (vm.setIrqLevel x.vmSetIrqLevel line.irq active).2,
              ⟨line.irq, changedSources x line.sources source active⟩)) := by
  unfold sharedIrqLineChange
  by_cases hsource : 64 ≤ source
  · exact Or.inl ⟨hsource, if_pos hsource⟩
  · rw [if_neg hsource]
    have hlt : source < 64 := Nat.lt_of_not_le hsource
    by_cases hd : Drives x line.sources source active
    · obtain ⟨hbefore, hafter⟩ := changedSources_of_drives hd
      have hedge : ¬ (line.sources ≠ 0#64)
          = (changedSources x line.sources source active ≠ 0#64) := by
        rw [propext hbefore, propext hafter]
        cases active <;> simp
      have hlevel : (decide (changedSources x line.sources source active ≠ 0#64)) = active := by
        rw [decide_eq_decide.mpr hafter]
        cases active <;> rfl
      refine Or.inr (Or.inr ⟨hlt, hd, ?_⟩)
      simp only [hedge, if_false, hlevel, Vm.setIrqLevel_fst]
    · have hsame : (line.sources ≠ 0#64)
          = (changedSources x line.sources source active ≠ 0#64) :=
        (propext (changedSources_of_not_drives hd)).symm
      exact Or.inr (Or.inl ⟨hlt, hd, by simp only [hsame, if_true]⟩)

theorem Driven.setIrqLevel {vm : Vm} {x : Bool → ℤ} {irq : BitVec 32} {active : Bool}
    {sources : Word} (hx : x active = 0) (h : sources ≠ 0#64 ↔ active = true) :
    Driven (vm.setIrqLevel x irq active).2 ⟨irq, sources⟩ := by
  unfold Driven
  rw [Vm.setIrqLevel_self vm irq hx]
  exact h.symm

/-- **Step.**  A call keeps the level the OR of the sources, unless it drives it and fails to. -/
theorem Driven.change {vm : Vm} {line : SharedIrqLine} (h : Driven vm line) {x : Answers}
    {source : ℕ} {active : Bool}
    (hx : 64 ≤ source ∨ ¬ Drives x line.sources source active ∨ x.vmSetIrqLevel active = 0) :
    Driven (sharedIrqLineChange vm x line source active).2.1
      (sharedIrqLineChange vm x line source active).2.2 := by
  rcases sharedIrqLineChange_cases vm x line source active with
    ⟨-, hr⟩ | ⟨-, hd, hr⟩ | ⟨hlt, hd, hr⟩
  · rw [hr]
    exact h
  · rw [hr]
    exact h.trans (changedSources_of_not_drives hd).symm
  · have hok : x.vmSetIrqLevel active = 0 := by
      rcases hx with hge | hno | hok
      · exact absurd hge (Nat.not_le.mpr hlt)
      · exact absurd hd hno
      · exact hok
    rw [hr]
    exact Driven.setIrqLevel hok (changedSources_of_drives hd).2

/-- The sources after a call, whatever the interrupt controller answers. -/
theorem sharedIrqLineChange_line (vm : Vm) (x : Answers) (line : SharedIrqLine) {source : ℕ}
    (active : Bool) (h : source < 64) :
    (sharedIrqLineChange vm x line source active).2.2
      = ⟨line.irq, changedSources x line.sources source active⟩ := by
  rcases sharedIrqLineChange_cases vm x line source active with
    ⟨hge, -⟩ | ⟨-, -, hr⟩ | ⟨-, -, hr⟩
  · exact absurd h (Nat.not_lt.mpr hge)
  · rw [hr]
  · rw [hr]

/-! ### Runs of calls -/

/-- A call of `shared_irq_line_change`. -/
structure LineCall where
  x : Answers
  source : ℕ
  active : Bool

/-- A line, what its calls made of the VM, and the level last set for each source. -/
structure LineRun where
  vm : Vm
  line : SharedIrqLine
  last : ℕ → Bool

/-- A call with a source that the function accepts, and a working `vm_set_irq_level`. -/
def lineStep (s : LineRun) (c : LineCall) : Option LineRun :=
  if c.source < 64 ∧ c.x.vmSetIrqLevel true = 0 ∧ c.x.vmSetIrqLevel false = 0 then
    let r := sharedIrqLineChange s.vm c.x s.line c.source c.active
    some ⟨r.2.1, r.2.2, Function.update s.last c.source c.active⟩
  else none

/-- Any calls on a line that `shared_irq_line_init` has set up. -/
def lineLts (irq : BitVec 32) : Lts LineRun LineCall :=
  .ofFun (fun s => s.line = ⟨irq, 0#64⟩ ∧ s.vm.level irq = false ∧ s.last = fun _ => false) lineStep

/-- The mask of the call is one bit, or the bits above it are clear anyway. -/
def Independent (c : LineCall) : Prop :=
  c.source < 31 ∨ (c.source = 31 ∧ c.active = false)

instance (c : LineCall) : Decidable (Independent c) :=
  inferInstanceAs (Decidable (_ ∨ _))

structure LineInv (irq : BitVec 32) (s : LineRun) : Prop where
  irq : s.line.irq = irq
  driven : Driven s.vm s.line
  bits : ∀ j < 64, s.line.sources.getLsbD j = s.last j
  high : ∀ j, 31 < j → s.last j = false

theorem lineStep_eq {s t : LineRun} {c : LineCall} (h : lineStep s c = some t) :
    c.source < 64 ∧ c.x.vmSetIrqLevel c.active = 0 ∧
      t = ⟨(sharedIrqLineChange s.vm c.x s.line c.source c.active).2.1,
        ⟨s.line.irq, changedSources c.x s.line.sources c.source c.active⟩,
        Function.update s.last c.source c.active⟩ := by
  unfold lineStep at h
  split at h
  · rename_i hc
    obtain ⟨hsource, htrue, hfalse⟩ := hc
    have hactive : c.x.vmSetIrqLevel c.active = 0 := by
      cases c.active with
      | true => exact htrue
      | false => exact hfalse
    cases h
    rw [sharedIrqLineChange_line s.vm c.x s.line c.active hsource]
    exact ⟨hsource, hactive, rfl⟩
  · cases h

theorem LineInv.step {irq : BitVec 32} {s t : LineRun} {c : LineCall} (hi : LineInv irq s)
    (hc : Independent c) (h : lineStep s c = some t) : LineInv irq t := by
  obtain ⟨hsource, hx, ht⟩ := lineStep_eq h
  have hline := sharedIrqLineChange_line s.vm c.x s.line c.active hsource
  have hdriven : Driven (sharedIrqLineChange s.vm c.x s.line c.source c.active).2.1
      (sharedIrqLineChange s.vm c.x s.line c.source c.active).2.2 :=
    hi.driven.change (Or.inr (Or.inr hx))
  rw [hline] at hdriven
  have hlt : c.source < 32 := by
    rcases hc with hc | hc
    · omega
    · omega
  subst ht
  refine ⟨hi.irq, hdriven, ?_, ?_⟩
  · intro j hj
    show (changedSources c.x s.line.sources c.source c.active).getLsbD j
      = Function.update s.last c.source c.active j
    rw [getLsbD_changedSources c.active hlt hj]
    by_cases he : j = c.source
    · rw [if_pos (Or.inl he), he, Function.update_self]
    · rw [Function.update_of_ne he]
      by_cases hspill : c.source = 31 ∧ 31 ≤ j
      · rw [if_pos (Or.inr hspill), hi.high j (by omega)]
        rcases hc with hc | hc
        · omega
        · exact hc.2
      · rw [if_neg (by
          intro hor
          rcases hor with hor | hor
          · exact he hor
          · exact hspill hor)]
        exact hi.bits j hj
  · intro j hj
    show Function.update s.last c.source c.active j = false
    rw [Function.update_of_ne (by omega)]
    exact hi.high j hj

theorem lineInv_reachable {irq : BitVec 32} {s : LineRun}
    (h : ((lineLts irq).restrict fun _ c => Independent c).Reachable s) : LineInv irq s := by
  apply h.invariant (I := LineInv irq)
  · intro s hs
    obtain ⟨hline, hlevel, hlast⟩ := hs
    refine ⟨by rw [hline], ?_, ?_, ?_⟩
    · unfold Driven
      rw [hline]
      simp [hlevel]
    · intro j hj
      rw [hline, hlast]
      exact BitVec.getLsbD_zero
    · intro j _
      rw [hlast]
  · intro s c t _ hs hst
    exact hs.step hst.1 hst.2

/-- **Sources up to 30.**  In a run of calls with sources below 31, or that clear source 31, the
line's level is the OR of the levels last set, and these are what the line records.  Among the calls
whose shift is defined these are the ones that change the record of no other source. -/
theorem line_calls {irq : BitVec 32} {s : LineRun}
    (h : ((lineLts irq).restrict fun _ c => Independent c).Reachable s) :
    (s.vm.level irq = true ↔ ∃ j < 64, s.last j = true) ∧
      (∀ j < 64, s.line.sources.getLsbD j = s.last j) ∧
      ∀ c t, c.source < 32 → lineStep s c = some t →
        ((∀ j < 64, j ≠ c.source → t.line.sources.getLsbD j = s.line.sources.getLsbD j) ↔
          Independent c) := by
  have hi := lineInv_reachable h
  refine ⟨?_, hi.bits, ?_⟩
  · have hdriven := hi.driven
    unfold Driven at hdriven
    rw [hi.irq, ne_zero_iff_exists_bit] at hdriven
    rw [hdriven]
    constructor
    · rintro ⟨j, hj, hbit⟩
      exact ⟨j, hj, by rw [← hi.bits j hj]; exact hbit⟩
    · rintro ⟨j, hj, hlast⟩
      exact ⟨j, hj, by rw [hi.bits j hj]; exact hlast⟩
  · intro c t hsource hstep
    constructor
    · intro hkept
      by_cases hlow : c.source < 31
      · exact Or.inl hlow
      · -- the mask of source 31 covers source 32, whose record is clear
        have h31 : c.source = 31 := by omega
        obtain ⟨-, -, rfl⟩ := lineStep_eq hstep
        have h32 := hkept 32 (by decide) (by omega)
        have hclear : s.line.sources.getLsbD 32 = false := by
          rw [hi.bits 32 (by decide), hi.high 32 (by decide)]
        rw [hclear, getLsbD_changedSources c.active hsource (by decide),
          if_pos (Or.inr ⟨h31, by decide⟩)] at h32
        exact Or.inr ⟨h31, h32⟩
    · intro hc j hj hne
      have hit := hi.step hc hstep
      rw [hit.bits j hj, hi.bits j hj]
      obtain ⟨-, -, rfl⟩ := lineStep_eq hstep
      exact Function.update_of_ne hne _ _

/-- A line as `shared_irq_line_init` leaves it. -/
def freshLine (irq : BitVec 32) : LineRun :=
  ⟨⟨[], 0, [irq], fun _ => false⟩, ⟨irq, 0#64⟩, fun _ => false⟩

theorem line_calls_shared :
    ∃ s : LineRun, s.last 3 = false ∧ s.last 5 = true ∧ s.line.sources.getLsbD 5 = true ∧
      s.vm.level 128#32 = true := by
  let calls : List LineCall :=
    [⟨callsSucceed, 3, true⟩, ⟨callsSucceed, 5, true⟩, ⟨callsSucceed, 3, false⟩]
  let s := play (guarded (fun _ c => Independent c) lineStep) (freshLine 128#32) calls
  have hinit : ((lineLts 128#32).restrict fun _ c => Independent c).init (freshLine 128#32) :=
    ⟨rfl, rfl, rfl⟩
  have hreach : ((lineLts 128#32).restrict fun _ c => Independent c).Reachable s :=
    Lts.Reachable.play (fun _ _ _ h => guarded_step h) (.init hinit) calls
  have h3 : s.last 3 = false := by decide +kernel
  have h5 : s.last 5 = true := by decide +kernel
  obtain ⟨hlevel, hbits, -⟩ := line_calls hreach
  exact ⟨s, h3, h5, by rw [hbits 5 (by decide), h5], hlevel.mpr ⟨5, by decide, h5⟩⟩

/-- Setting source 31 records a set level for source 40, which no call has named. -/
theorem sign_extension_spills :
    ∃ s t : LineRun, (lineLts 128#32).Reachable s ∧
      lineStep s ⟨callsSucceed, 31, true⟩ = some t ∧
      s.line.sources.getLsbD 40 = false ∧ t.line.sources.getLsbD 40 = true ∧ t.last 40 = false := by
  have hinit : (lineLts 128#32).init (freshLine 128#32) := ⟨rfl, rfl, rfl⟩
  exact ⟨freshLine 128#32, _, .init hinit, rfl, by decide, by decide, by decide⟩

/-! ### Failing calls -/

/-- The call does not have to drive the controller, or it succeeds in doing so. -/
def Delivered (x : Answers) (sources : Word) (source : ℕ) (active : Bool) : Prop :=
  64 ≤ source ∨ ¬ Drives x sources source active ∨ x.vmSetIrqLevel active = 0

/-- A failed call has kept the sources exactly when it was not the controller that failed. -/
theorem failure_keeps_sources_iff (vm : Vm) (x : Answers) (line : SharedIrqLine) (source : ℕ)
    (active : Bool) :
    ((sharedIrqLineChange vm x line source active).1 ≠ 0 →
        (sharedIrqLineChange vm x line source active).2.2.sources = line.sources) ↔
      Delivered x line.sources source active := by
  rcases sharedIrqLineChange_cases vm x line source active with
    ⟨hge, hr⟩ | ⟨-, hd, hr⟩ | ⟨hlt, hd, hr⟩
  · rw [hr]
    exact ⟨fun _ => Or.inl hge, fun _ _ => rfl⟩
  · rw [hr]
    exact ⟨fun _ => Or.inr (Or.inl hd), fun _ hne => absurd rfl hne⟩
  · rw [hr]
    constructor
    · intro hkept
      by_contra hno
      have hx : x.vmSetIrqLevel active ≠ 0 := fun hx => hno (Or.inr (Or.inr hx))
      -- the change has made the line have a source, or have none any more
      obtain ⟨hbefore, hafter⟩ := changedSources_of_drives hd
      have hsame : changedSources x line.sources source active = line.sources := hkept hx
      rw [hsame] at hafter
      have hboth := hbefore.symm.trans hafter
      cases active with
      | true => exact Bool.noConfusion (hboth.mpr rfl)
      | false => exact Bool.noConfusion (hboth.mp rfl)
    · rintro (hge | hno | hx) hne
      · exact absurd hge (Nat.not_le.mpr hlt)
      · exact absurd hd hno
      · exact absurd hx hne

section Intx

variable {β : Type} [DecidableEq β]

/-- A call on an INTx line, by itself or for a device. -/
inductive IntxAct (β : Type) where
  /-- `shared_irq_line_change` of `pci_intx[i]` -/
  | change (i : Fin pciNumPins) (x : Answers) (source : ℕ) (active : Bool)
  /-- `handle_pci_intx` -/
  | intx (x : Answers) (ioProxy : β) (backendDevfn irqOp : BitVec 32)

def IntxAct.answers : IntxAct β → Answers
  | .change _ x _ _ => x
  | .intx x _ _ _ => x

def intxStep (d : DeviceTables β) : IntxAct β → ℤ × DeviceTables β
  | .change i x source active => pciIntxChange d x i source active
  | .intx x ioProxy backendDevfn irqOp => handlePciIntx d x ioProxy backendDevfn irqOp

/-- Every call on a line that the step makes is delivered. -/
def StepDelivered (d : DeviceTables β) : IntxAct β → Prop
  | .change i x source active => Delivered x (d.pciIntx i).sources source active
  | .intx x ioProxy backendDevfn irqOp =>
      ∀ pcidev, pcidevFind d ioProxy backendDevfn = some pcidev →
        let sources := (d.pciIntx (pciMapIrq pcidev)).sources
        let slot := (pciSlot pcidev.devfn).toNat
        (irqOp = rpcIrqSet → Delivered x sources slot true) ∧
          (irqOp = rpcIrqClr → Delivered x sources slot false) ∧
            (irqOp = rpcIrqPulse → Delivered x sources slot true ∧
              Delivered x (changedSources x sources slot true) slot false)

/-- The INTx lines of a VM: four interrupts, with any sources, each at its level. -/
def intxLts : Lts (DeviceTables β) (IntxAct β) where
  init d := (∀ i, Driven d.vm (d.pciIntx i)) ∧
    ∀ i j, i ≠ j → (d.pciIntx i).irq ≠ (d.pciIntx j).irq
  step d a d' := (intxStep d a).2 = d'

structure IntxInv (d : DeviceTables β) : Prop where
  driven : ∀ i, Driven d.vm (d.pciIntx i)
  irqs : ∀ i j, i ≠ j → (d.pciIntx i).irq ≠ (d.pciIntx j).irq

omit [DecidableEq β] in
/-- A call touches one line, and only its interrupt. -/
theorem pciIntxChange_frame (d : DeviceTables β) (x : Answers) (i : Fin pciNumPins) (source : ℕ)
    (active : Bool) :
    (∀ j, ((pciIntxChange d x i source active).2.pciIntx j).irq = (d.pciIntx j).irq) ∧
      (∀ j, j ≠ i → (pciIntxChange d x i source active).2.pciIntx j = d.pciIntx j) ∧
      (∀ irq, irq ≠ (d.pciIntx i).irq →
        (pciIntxChange d x i source active).2.vm.level irq = d.vm.level irq) := by
  refine ⟨?_, ?_, ?_⟩
  · intro j
    show (Function.update d.pciIntx i _ j).irq = _
    by_cases hj : j = i
    · rw [hj, Function.update_self]
      rcases sharedIrqLineChange_cases d.vm x (d.pciIntx i) source active with
        ⟨-, hr⟩ | ⟨-, -, hr⟩ | ⟨-, -, hr⟩
      · rw [hr]
      · rw [hr]
      · rw [hr]
    · rw [Function.update_of_ne hj]
  · intro j hj
    exact Function.update_of_ne hj _ _
  · intro irq hirq
    show (sharedIrqLineChange d.vm x (d.pciIntx i) source active).2.1.level irq = _
    rcases sharedIrqLineChange_cases d.vm x (d.pciIntx i) source active with
      ⟨-, hr⟩ | ⟨-, -, hr⟩ | ⟨-, -, hr⟩
    · rw [hr]
    · rw [hr]
    · rw [hr]
      exact Vm.setIrqLevel_other _ _ _ hirq

omit [DecidableEq β] in
theorem IntxInv.change {d : DeviceTables β} (hi : IntxInv d) {x : Answers} {i : Fin pciNumPins}
    {source : ℕ} {active : Bool} (h : Delivered x (d.pciIntx i).sources source active) :
    IntxInv (pciIntxChange d x i source active).2 := by
  obtain ⟨hirq, hother, hlevel⟩ := pciIntxChange_frame d x i source active
  constructor
  · intro j
    by_cases hj : j = i
    · have hdriven := (hi.driven i).change h
      rw [hj]
      show Driven _ (Function.update d.pciIntx i _ i)
      rw [Function.update_self]
      exact hdriven
    · unfold Driven
      rw [hother j hj, hlevel _ (hi.irqs j i hj)]
      exact hi.driven j
  · intro j k hjk
    rw [hirq j, hirq k]
    exact hi.irqs j k hjk

theorem irqIsPci_pciSlot (devfn : BitVec 32) : irqIsPci (pciSlot devfn) = true := by
  have hle : (pciSlot devfn).toNat ≤ 31 := by
    unfold pciSlot
    rw [BitVec.toNat_and]
    exact Nat.and_le_right
  unfold irqIsPci
  exact decide_eq_true (Nat.lt_succ_of_le hle)

/-- What `pcidev_intx_set` does. -/
theorem pcidevIntxSet_cases (d : DeviceTables β) (x : Answers) (ioProxy : β)
    (backendDevfn : BitVec 32) (level : Bool) :
    (pcidevFind d ioProxy backendDevfn = none ∧
        pcidevIntxSet d x ioProxy backendDevfn level = (-1, d)) ∨
      ∃ pcidev, pcidevFind d ioProxy backendDevfn = some pcidev ∧
        pcidevIntxSet d x ioProxy backendDevfn level
          = pciIntxChange d x (pciMapIrq pcidev) (pciSlot pcidev.devfn).toNat level := by
  unfold pcidevIntxSet
  rw [irqIsPci_pciSlot]
  cases hf : pcidevFind d ioProxy backendDevfn with
  | none => exact Or.inl ⟨rfl, rfl⟩
  | some pcidev => exact Or.inr ⟨pcidev, rfl, rfl⟩

theorem IntxInv.intxSet {d : DeviceTables β} (hi : IntxInv d) {x : Answers} {ioProxy : β}
    {backendDevfn : BitVec 32} {level : Bool}
    (h : ∀ pcidev, pcidevFind d ioProxy backendDevfn = some pcidev →
      Delivered x (d.pciIntx (pciMapIrq pcidev)).sources (pciSlot pcidev.devfn).toNat level) :
    IntxInv (pcidevIntxSet d x ioProxy backendDevfn level).2 := by
  rcases pcidevIntxSet_cases d x ioProxy backendDevfn level with ⟨-, hr⟩ | ⟨pcidev, hf, hr⟩
  · rw [hr]
    exact hi
  · rw [hr]
    exact hi.change (h pcidev hf)

omit [DecidableEq β] in
/-- The sources of the line after the first half of a pulse. -/
theorem pciIntxChange_sources (d : DeviceTables β) (x : Answers) (i : Fin pciNumPins) {source : ℕ}
    (active : Bool) (h : source < 64) :
    ((pciIntxChange d x i source active).2.pciIntx i).sources
      = changedSources x (d.pciIntx i).sources source active := by
  show (Function.update d.pciIntx i _ i).sources = _
  rw [Function.update_self, sharedIrqLineChange_line d.vm x (d.pciIntx i) active h]

theorem pciSlot_lt (devfn : BitVec 32) : (pciSlot devfn).toNat < 32 :=
  of_decide_eq_true (irqIsPci_pciSlot devfn)

/-- **Step.** -/
theorem IntxInv.step {d : DeviceTables β} (hi : IntxInv d) {a : IntxAct β}
    (h : StepDelivered d a) : IntxInv (intxStep d a).2 := by
  cases a with
  | change i x source active => exact hi.change h
  | intx x ioProxy backendDevfn irqOp =>
      show IntxInv (handlePciIntx d x ioProxy backendDevfn irqOp).2
      unfold handlePciIntx
      by_cases hset : irqOp = rpcIrqSet
      · rw [if_pos hset]
        exact hi.intxSet fun pcidev hf => (h pcidev hf).1 hset
      · rw [if_neg hset]
        by_cases hclr : irqOp = rpcIrqClr
        · rw [if_pos hclr]
          exact hi.intxSet fun pcidev hf => (h pcidev hf).2.1 hclr
        · rw [if_neg hclr]
          by_cases hpulse : irqOp = rpcIrqPulse
          · rw [if_pos hpulse]
            have hfirst := hi.intxSet (x := x) fun pcidev hf => ((h pcidev hf).2.2 hpulse).1
            simp only
            by_cases hr : (pcidevIntxSet d x ioProxy backendDevfn true).1 ≠ 0
            · rw [if_pos hr]
              exact hfirst
            · rw [if_neg hr]
              apply hfirst.intxSet
              intro pcidev hf
              -- the line's sources are those that the first half of the pulse has left
              rcases pcidevIntxSet_cases d x ioProxy backendDevfn true with
                ⟨-, hnone⟩ | ⟨pcidev', hf', hsome⟩
              · rw [hnone] at hr
                exact absurd (show (-1 : ℤ) ≠ 0 by decide) hr
              · rw [hsome] at hf ⊢
                have hsame : pcidev' = pcidev := by
                  have hfind : pcidevFind d ioProxy backendDevfn = some pcidev := hf
                  rw [hf'] at hfind
                  exact Option.some.inj hfind
                subst hsame
                rw [pciIntxChange_sources d x _ true (Nat.lt_trans (pciSlot_lt _) (by decide))]
                exact ((h pcidev' hf').2.2 hpulse).2
          · rw [if_neg hpulse]
            exact hi

theorem intxInv_reachable {d : DeviceTables β} (h : (intxLts.restrict StepDelivered).Reachable d) :
    IntxInv d := by
  apply h.invariant (I := IntxInv)
  · intro d hd
    exact ⟨hd.1, hd.2⟩
  · intro d a d' _ hd hst
    obtain ⟨hdel, hstep⟩ := hst
    rw [← show (intxStep d a).2 = d' from hstep]
    exact hd.step hdel

/-- When the controller works every call is delivered. -/
theorem stepDelivered_of_works (d : DeviceTables β) (a : IntxAct β)
    (h : ∀ b, a.answers.vmSetIrqLevel b = 0) : StepDelivered d a := by
  cases a with
  | change i x source active => exact Or.inr (Or.inr (h active))
  | intx x ioProxy backendDevfn irqOp =>
      intro pcidev _
      exact ⟨fun _ => Or.inr (Or.inr (h true)), fun _ => Or.inr (Or.inr (h false)),
        fun _ => ⟨Or.inr (Or.inr (h true)), Or.inr (Or.inr (h false))⟩⟩

/-- **Failing calls.**  A call that fails has kept the sources exactly when it was delivered; and in
a run whose calls are all delivered, repeating any change once the controller works leaves every
line at the OR of its sources. -/
theorem change_failure {d : DeviceTables β} (h : (intxLts.restrict StepDelivered).Reachable d) :
    (∀ vm x line source active,
      ((sharedIrqLineChange vm x line source active).1 ≠ 0 →
          (sharedIrqLineChange vm x line source active).2.2.sources = line.sources) ↔
        Delivered x line.sources source active) ∧
      ∀ a : IntxAct β, (∀ b, a.answers.vmSetIrqLevel b = 0) →
        ∀ i, ((intxStep d a).2.vm.level ((intxStep d a).2.pciIntx i).irq = true ↔
          ((intxStep d a).2.pciIntx i).sources ≠ 0#64) := by
  refine ⟨failure_keeps_sources_iff, ?_⟩
  intro a hworks i
  exact ((intxInv_reachable h).step (stepDelivered_of_works d a hworks)).driven i

end Intx

/-- A VM with one PCI device in slot 1, whose line is at its level. -/
def oneDevice : DeviceTables Bool where
  vm := ⟨[], 0, [], fun _ => false⟩
  pciIntx i := ⟨128#32 + BitVec.ofNat 32 i, 0#64⟩
  pciDevs := [⟨8#32, 24#32, false⟩]
  irqs := []
  mmioReservations := []
  okToRun := fun _ => true

/-- An event during which the controller fails. -/
def controllerFails : Answers := { callsSucceed with vmSetIrqLevel := fun _ => -1 }

/-- The device's interrupt is set, which fails, and set again when the controller works: the second
call reports success and the line stays low with its source set. -/
theorem lost_level :
    ∃ d d' : DeviceTables Bool,
      handlePciIntx oneDevice controllerFails false 24#32 rpcIrqSet = (-1, d) ∧
        (d.pciIntx 1).sources ≠ (oneDevice.pciIntx 1).sources ∧
        handlePciIntx d callsSucceed false 24#32 rpcIrqSet = (0, d') ∧
        (d'.pciIntx 1).sources ≠ 0#64 ∧ d'.vm.level (d'.pciIntx 1).irq = false := by
  let d := (handlePciIntx oneDevice controllerFails false 24#32 rpcIrqSet).2
  have hfirst : (handlePciIntx oneDevice controllerFails false 24#32 rpcIrqSet).1 = -1 := by
    decide +kernel
  have hagain : (handlePciIntx d callsSucceed false 24#32 rpcIrqSet).1 = 0 := by decide +kernel
  exact ⟨d, _, Prod.ext hfirst rfl, by decide +kernel, Prod.ext hagain rfl, by decide +kernel,
    by decide +kernel⟩

theorem oneDevice_init :
    ((intxLts : Lts (DeviceTables Bool) (IntxAct Bool)).restrict StepDelivered).init oneDevice := by
  constructor
  · intro i
    unfold Driven
    simp [oneDevice]
  · decide +kernel

/-- The interrupt is set and then pulsed, with a controller that works. -/
theorem change_failure_works :
    ∃ d : DeviceTables Bool, (d.pciIntx 1).sources = 2#64 ∧
      ∀ i, ((handlePciIntx d callsSucceed false 24#32 rpcIrqPulse).2.vm.level
          ((handlePciIntx d callsSucceed false 24#32 rpcIrqPulse).2.pciIntx i).irq = true ↔
        ((handlePciIntx d callsSucceed false 24#32 rpcIrqPulse).2.pciIntx i).sources ≠ 0#64) := by
  let a : IntxAct Bool := .intx callsSucceed false 24#32 rpcIrqSet
  have hstep : (intxLts.restrict StepDelivered).step oneDevice a (intxStep oneDevice a).2 :=
    ⟨stepDelivered_of_works oneDevice a fun _ => rfl, rfl⟩
  have hreach : (intxLts.restrict StepDelivered).Reachable (intxStep oneDevice a).2 :=
    (Lts.Reachable.init oneDevice_init).step hstep
  obtain ⟨-, hlines⟩ := change_failure hreach
  exact ⟨_, by decide +kernel, hlines (.intx callsSucceed false 24#32 rpcIrqPulse) fun _ => rfl⟩

end TiiSel4Vm.Devices
