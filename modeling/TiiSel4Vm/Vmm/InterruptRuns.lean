import TiiSel4Vm.Vmm.InterruptLevels

/-!
# The interrupts of a VM

Backends are attached at any time, and the attached ones send events in any order.  The first
initialisation makes the INTx lines, and no initialisation sets a level.

* `VmmInv` — what holds before and after `irq_init`;
* `interrupt_levels` — over every run an interrupt is high exactly if a source of it was last
  commanded high.
-/

namespace TiiSel4Vm.Devices

open TiiSel4Vm.Transition TiiSel4Vm.RpcQueue TiiSel4Vm.CommandLog
open TiiSel4Vm.Msi (Gicv2m v2mInit)

/-! ### Initialisation -/

section Init

variable {β γ : Type}

/-- The lines that the loop of `irq_init` has come to. -/
theorem irqInitLoop_lines (x : InitAnswers) (base : BitVec 32) (is : List (Fin pciNumPins))
    (d : DeviceTables β) :
    (irqInitLoop x base is d).2.vm.level = d.vm.level ∧
      ((irqInitLoop x base is d).1 = 0 → ∀ j, (irqInitLoop x base is d).2.pciIntx j
        = if j ∈ is then ⟨base + BitVec.ofNat 32 j, 0#64⟩ else d.pciIntx j) := by
  induction is generalizing d with
  | nil => exact ⟨rfl, fun _ _ => rfl⟩
  | cons i is ih =>
      have hfirst : (sharedIrqLineInit d x base i).2.vm.level = d.vm.level :=
        Vm.registerIrq_level d.vm _ _
      unfold irqInitLoop
      by_cases herr : (sharedIrqLineInit d x base i).1 ≠ 0
      · rw [if_pos herr]
        exact ⟨hfirst, fun h => absurd h herr⟩
      · obtain ⟨hlevel, hlines⟩ := ih (sharedIrqLineInit d x base i).2
        rw [if_neg herr]
        refine ⟨hlevel.trans hfirst, ?_⟩
        intro hok j
        rw [hlines hok j]
        show (if j ∈ is then _ else Function.update d.pciIntx i _ j) = _
        by_cases hj : j ∈ is
        · rw [if_pos hj, if_pos (List.mem_cons_of_mem i hj)]
        · rw [if_neg hj]
          by_cases hji : j = i
          · rw [hji, Function.update_self, if_pos List.mem_cons_self]
          · rw [Function.update_of_ne hji, if_neg (by simp [hj, hji])]

theorem irqInit_lines {w : Vmm β} {x : InitAnswers} {base : BitVec 32}
    (h : (irqInit w x base).1 = 0) :
    (irqInit w x base).2.tables.vm.level = w.tables.vm.level ∧
      (irqInit w x base).2.tables.pciIntx
        = if w.irqDone then w.tables.pciIntx else fun i => ⟨base + BitVec.ofNat 32 i, 0#64⟩ := by
  unfold irqInit at h ⊢
  cases hdone : w.irqDone with
  | true => exact ⟨rfl, rfl⟩
  | false =>
      obtain ⟨hlevel, hlines⟩ := irqInitLoop_lines x base (List.finRange pciNumPins) w.tables
      simp only [hdone, Bool.false_eq_true, if_false] at h ⊢
      by_cases hok : (irqInitLoop x base (List.finRange pciNumPins) w.tables).1 = 0
      · rw [if_pos hok]
        refine ⟨hlevel, ?_⟩
        funext j
        rw [hlines hok j, if_pos (List.mem_finRange j)]
      · rw [if_neg hok] at h
        exact absurd h (show (-1 : ℤ) ≠ 0 by decide)

/-- **A backend is attached.**  The first initialisation makes the lines, and no initialisation sets
a level. -/
theorem init_lines {w w' : Vmm β} {x : InitAnswers} {base : BitVec 32} {ctrlBase ctrlSize : Word}
    {ioProxy : β} (hmsi : ∀ vm, (x.msiVm vm).level = vm.level)
    (h : libsel4vmIoProxyInit w x base ctrlBase ctrlSize ioProxy = some (0, w')) :
    w'.tables.vm.level = w.tables.vm.level ∧
      w'.tables.pciIntx
        = if w.irqDone then w.tables.pciIntx else fun i => ⟨base + BitVec.ofNat 32 i, 0#64⟩ := by
  have hreserve := Vm.reserve_level w.tables.vm x.vmReserveMemoryAt ctrlBase ctrlSize
  unfold libsel4vmIoProxyInit at h
  split at h
  · cases h
  · rename_i res vm hvm
    rw [hvm] at hreserve
    simp only at h
    split at h
    · cases h
    · rename_i hirq
      obtain ⟨hlevel, hintx⟩ := irqInit_lines (not_not.mp hirq)
      split at h
      · cases h
      · split at h
        · cases h
        · cases h
          obtain ⟨-, -, -, hkeep⟩ := emudevInit_frame
            { (irqInit { w with tables := { w.tables with vm := vm } } x base).2.tables with
                vm := x.msiVm (irqInit { w with tables := { w.tables with vm := vm } } x
                  base).2.tables.vm } x
          refine ⟨?_, hkeep.trans hintx⟩
          have hvm' : ∀ d : DeviceTables β, (emudevInit d x).2.vm = d.vm := by
            intro d
            unfold emudevInit
            split <;> rfl
          rw [hvm', hmsi, hlevel]
          exact hreserve

/-! ### Runs -/

variable [DecidableEq β] {base : BitVec 32} {v2m : Option (Gicv2m γ)} {w w' : Vmm β}
  {log : List (Source β × Bool)} {acts : List (VmmAct β)}

/-- Before `irq_init` is done nothing is raised; afterwards the levels follow the log. -/
structure VmmInv (base : BitVec 32) (log : List (Source β × Bool)) (w : Vmm β) : Prop where
  idle : w.irqDone = false →
    log = [] ∧ w.tables.pciDevs = [] ∧ ∀ irq, w.tables.vm.level irq = false
  done : w.irqDone = true → LevelsInv base log w.tables

theorem levelsInv_first {d : DeviceTables β} (hdevs : d.pciDevs = [])
    (hintx : ∀ i, d.pciIntx i = ⟨base + BitVec.ofNat 32 i, 0#64⟩)
    (hlow : ∀ irq, d.vm.level irq = false) : LevelsInv base [] d := by
  have hlevels : deviceLevels [] d = fun _ => false := by
    funext k
    unfold deviceLevels
    rw [hdevs]
    rfl
  refine ⟨⟨d, ⟨rfl, rfl, fun _ _ => rfl⟩, ?_⟩, ?_, fun _ _ _ => rfl⟩
  · rw [hlevels]
    exact pciInv_reachable (s := ⟨d, fun _ => false⟩) (.init ⟨hdevs, hintx, fun i => hlow _, rfl⟩)
  · intro irq _
    rw [hlow]
    exact ⟨fun h => absurd h Bool.false_ne_true, fun h => by cases h⟩

theorem VmmInv.init (hi : VmmInv base log w) {x : InitAnswers} {ctrlBase ctrlSize : Word}
    {ioProxy : β} (hsources : w.irqDone = false → ∀ i, (w.tables.pciIntx i).sources = 0#64)
    (hmsi : ∀ vm, (x.msiVm vm).level = vm.level)
    (h : libsel4vmIoProxyInit w x base ctrlBase ctrlSize ioProxy = some (0, w')) :
    VmmInv base log w' := by
  obtain ⟨hdevs, -, -⟩ := init_frame hsources h
  obtain ⟨hlevel, hintx⟩ := init_lines hmsi h
  have hdone := irqDone_of_init h
  refine ⟨fun hno => absurd (hdone.symm.trans hno) (by decide), fun _ => ?_⟩
  cases hbefore : w.irqDone with
  | true =>
      rw [hbefore, if_pos rfl] at hintx
      exact (hi.done hbefore).quiet hdevs hintx hlevel
  | false =>
      obtain ⟨hlog, hnone, hlow⟩ := hi.idle hbefore
      rw [hbefore, if_neg Bool.false_ne_true] at hintx
      rw [hlog]
      refine levelsInv_first (hdevs.trans hnone) (fun i => by rw [hintx]) ?_
      rw [hlevel]
      exact hlow

theorem VmmInv.step (hready : FrameReady v2m) (hi : VmmInv base log w) (hinit : InitInv w)
    {act : VmmAct β} (hs : (platformLts base v2m).step w act w') :
    VmmInv base (log ++ (act.command v2m w).toList) w' := by
  obtain ⟨hplatform, hstep⟩ := hs
  cases act with
  | init ioProxy x ctrlBase ctrlSize =>
      have hkeep : log ++ (VmmAct.command v2m w (.init ioProxy x ctrlBase ctrlSize)).toList = log :=
        List.append_nil log
      have hstep' : vmmStep base w (.init ioProxy x ctrlBase ctrlSize) = some w' := hstep
      rw [hkeep]
      unfold vmmStep at hstep'
      simp only at hstep'
      split at hstep'
      · cases hstep'
      · split at hstep'
        · cases hstep'
        · rename_i ret v hret
          split at hstep'
          · rename_i hzero
            cases hstep'
            rw [hzero] at hret
            exact hi.init hinit.sources hplatform hret
          · cases hstep'
  | event ioProxy x mmio msi msg =>
      obtain ⟨rfl, hx, hdev⟩ := hplatform
      have hstep' : vmmStep base w (.event ioProxy x mmio
        (platformMsi v2m x (qemuOp (msg mr0)) msg) msg) = some w' := hstep
      unfold vmmStep at hstep'
      simp only at hstep'
      split at hstep'
      · rename_i hattached
        -- the sender is attached, so `irq_init` is done
        have hdone : w.irqDone = true := by
          apply Bool.eq_true_of_not_eq_false
          intro hno
          rw [hinit.attached hno] at hattached
          cases hattached
        cases hstep'
        refine ⟨fun hno => ?_, fun _ => ?_⟩
        · rw [hdone] at hno
          cases hno
        · exact (hi.done hdone).step hx (effect_event hready hx mmio msg w.tables) hdev
      · cases hstep'

/-- **Run.** -/
theorem vmmInv_run (hready : FrameReady v2m)
    (h : (platformLts base v2m).Run .initial acts w) :
    VmmInv base (commandLog base v2m acts) w := by
  induction h with
  | nil => exact ⟨fun _ => ⟨rfl, rfl, fun _ => rfl⟩, fun hdone => by cases hdone⟩
  | @snoc m m' acts act hrun hs ih =>
      have hreach : (platformLts base v2m).Reachable m := Lts.Reachable.run (.init rfl) hrun
      have hinit := initInv_reachable hreach.of_restrict
      have hlog : commandLog base v2m (acts ++ [act])
          = commandLog base v2m acts ++ (act.command v2m m).toList :=
        outputs_snoc (M := platformLts base v2m) (fun _ _ _ hs => hs.2) (VmmAct.command v2m)
          hrun hs
      rw [hlog]
      exact ih.step hready hinit hs

/-- **Interrupt levels.**  After any run an interrupt is high exactly if one of its sources was last
commanded high; only an INTx interrupt that a backend has driven by its number may differ. -/
theorem interrupt_levels (hready : FrameReady v2m)
    (h : (platformLts base v2m).Run .initial acts w) (read : Pcidev β → BitVec 32 → ℕ → Word)
    (irq : BitVec 32) (hirq : ¬ Contested base (commandLog base v2m acts) irq) :
    w.tables.vm.level irq = true ↔
      Asserted (commandLog base v2m acts) (OnInterrupt base read w.tables irq) := by
  have hi := vmmInv_run hready h
  cases hdone : w.irqDone with
  | false =>
      obtain ⟨hlog, -, hlow⟩ := hi.idle hdone
      rw [hlog, hlow]
      exact ⟨fun hno => absurd hno Bool.false_ne_true, fun hno => absurd hno (not_asserted_nil _)⟩
  | true =>
      have hlevels := hi.done hdone
      by_cases hintx : IsIntx base irq
      · have hnumber : last (commandLog base v2m acts) (.number irq) = none :=
          not_not.mp fun hne => hirq ⟨hintx, hne⟩
        obtain ⟨t, halike, ht⟩ := hlevels.devices
        obtain ⟨i, rfl⟩ := hintx
        rw [← halike.level _ hnumber, ht.level_iff i]
        constructor
        · rintro ⟨k, p, hp, hpin, hlevel⟩
          obtain ⟨io, slot, hk, hlast⟩ := deviceLevels_iff.mp hlevel
          rw [halike.devs] at hp
          exact ⟨.pci io slot, ⟨⟨i, rfl⟩, k, p, hk, hp, names_iff.mpr hpin⟩, hlast⟩
        · rintro ⟨s, hon, hlast⟩
          cases s with
          | pci io slot =>
              obtain ⟨-, k, p, hk, hp, hname⟩ := hon
              refine ⟨k, p, ?_, names_iff.mp hname, deviceLevels_iff.mpr ⟨io, slot, hk, hlast⟩⟩
              rw [halike.devs]
              exact hp
          | number n =>
              cases hon
              rw [hnumber] at hlast
              cases hlast
      · rw [hlevels.numbers irq hintx]
        constructor
        · intro hlast
          exact ⟨.number irq, rfl, hlast⟩
        · rintro ⟨s, hon, hlast⟩
          cases s with
          | pci io slot => exact absurd hon.1 hintx
          | number n =>
              cases hon
              exact hlast

end Init

/-! ### A run -/

/-- A backend is attached on the virtual platform. -/
def attachBackend : VmmAct Bool :=
  let msiVm := fun vm => (v2mInit ⟨fun _ => 0, true⟩ () Msi.virtV2m vm).2.2
  .init true ⟨true, fun _ => 0, 0, msiVm, 0, 0⟩ 0x1000#64 0x1000#64

/-- It makes a request. -/
def requestAct (r : DeviceRequest) : VmmAct Bool :=
  .event true callsSucceed .none
    (platformMsi (some virtFrame) callsSucceed (qemuOp (r.words mr0)) r.words) r.words

/-- A PCI device in backend slot 3 and the emulated device of interrupt 40 are raised, and interrupt
100 of the frame is pulsed. -/
def raisedScript : List (VmmAct Bool) :=
  [attachBackend, requestAct (.createVpciDevice 3#64), requestAct (.setIrqline 3#64),
    requestAct (.setIrqline 40#64), requestAct (.pulseIrqline 100#64)]

theorem requestAct_onPlatform {r : DeviceRequest} {w : Vmm Bool}
    (h : qemuOp (r.words mr0) = qemuOpRegisterPciDev → w.tables.pciDevs = []) :
    (requestAct r).OnPlatform (some virtFrame) w := by
  refine ⟨rfl, fun _ => rfl, ?_⟩
  intro hop _
  rw [h hop]
  exact ⟨by decide, fun p hp => by cases hp⟩

theorem raisedScript_run {w : Vmm Bool}
    (h : runAll (vmmStep 128#32) .initial raisedScript = some w) :
    (platformLts 128#32 (some virtFrame)).Run .initial raisedScript w := by
  obtain ⟨w₁, h₁, h⟩ := Option.bind_eq_some_iff.mp h
  obtain ⟨w₂, h₂, h⟩ := Option.bind_eq_some_iff.mp h
  obtain ⟨w₃, h₃, h⟩ := Option.bind_eq_some_iff.mp h
  obtain ⟨w₄, h₄, h⟩ := Option.bind_eq_some_iff.mp h
  obtain ⟨w₅, h₅, h⟩ := Option.bind_eq_some_iff.mp h
  cases h
  have hnone : w₁.tables.pciDevs = [] := by
    have hmap : (vmmStep 128#32 .initial attachBackend).map (fun w => w.tables.pciDevs)
        = some [] := by
      decide +kernel
    rw [h₁] at hmap
    exact Option.some.inj hmap
  have hattach : VmmAct.OnPlatform (some virtFrame) Vmm.initial attachBackend :=
    fun vm => v2mInit_level _ _ _ vm
  refine .cons ⟨hattach, h₁⟩ (.cons ⟨requestAct_onPlatform fun _ => hnone, h₂⟩
    (.cons ⟨requestAct_onPlatform fun hop => ?_, h₃⟩
      (.cons ⟨requestAct_onPlatform fun hop => ?_, h₄⟩
        (.single ⟨requestAct_onPlatform fun hop => ?_, h₅⟩))))
  · exact absurd hop (by decide)
  · exact absurd hop (by decide)
  · exact absurd hop (by decide)

/-- The device's INTx interrupt is asserted by the log. -/
theorem interrupt_levels_raised :
    ∃ w : Vmm Bool, w.tables.vm.level 129#32 = true ∧
      Asserted (commandLog 128#32 (some virtFrame) raisedScript)
        (OnInterrupt 128#32 (fun _ _ _ => 0#64) w.tables 129#32) := by
  obtain ⟨w, hw⟩ := Option.isSome_iff_exists.mp
    (by decide +kernel : (runAll (vmmStep 128#32) .initial raisedScript).isSome = true)
  have hlevel : w.tables.vm.level 129#32 = true := by
    have hmap : (runAll (vmmStep 128#32) .initial raisedScript).map
        (fun w => w.tables.vm.level 129#32) = some true := by
      decide +kernel
    rw [hw] at hmap
    exact Option.some.inj hmap
  have hfree : ¬ Contested 128#32 (commandLog 128#32 (some virtFrame) raisedScript) 129#32 := by
    rintro ⟨-, hnumber⟩
    exact hnumber (by decide +kernel)
  have hlevels := interrupt_levels frameReady_virtFrame (raisedScript_run hw) (fun _ _ _ => 0#64)
    129#32 hfree
  exact ⟨w, hlevel, hlevels.mp hlevel⟩

end TiiSel4Vm.Devices
