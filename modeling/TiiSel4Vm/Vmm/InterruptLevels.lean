import TiiSel4Vm.Vmm.InterruptCommands

/-!
# Levels and commands

The levels of the interrupts follow the log of the accepted commands.  An INTx line does so as long
as its interrupt is not driven by number, which its sources do not see.

* `AlikeOn` — tables with the same devices and lines;
* `deviceLevels` — what the log says of the registered devices;
* `LevelsInv` — the levels follow the log, and every event keeps that.
-/

namespace TiiSel4Vm.Devices

open TiiSel4Vm.RpcQueue TiiSel4Vm.CommandLog

/-! ### Interrupts of PCI devices -/

section Pci

variable {β : Type}

/-- The same devices and lines, and the same levels of the interrupts in `S`. -/
structure AlikeOn (S : BitVec 32 → Prop) (d t : DeviceTables β) : Prop where
  devs : t.pciDevs = d.pciDevs
  intx : t.pciIntx = d.pciIntx
  level : ∀ irq, S irq → t.vm.level irq = d.vm.level irq

variable {S : BitVec 32 → Prop} {d t : DeviceTables β} {x : Answers}

/-- The change of a line does not look at the levels. -/
theorem AlikeOn.change (h : AlikeOn S d t) (hx : ∀ b, x.vmSetIrqLevel b = 0) (i : Fin pciNumPins)
    (source : ℕ) (b : Bool) :
    (pciIntxChange t x i source b).1 = (pciIntxChange d x i source b).1 ∧
      AlikeOn S (pciIntxChange d x i source b).2 (pciIntxChange t x i source b).2 := by
  have hline : t.pciIntx i = d.pciIntx i := by rw [h.intx]
  have hboth : (sharedIrqLineChange t.vm x (d.pciIntx i) source b).1
        = (sharedIrqLineChange d.vm x (d.pciIntx i) source b).1 ∧
      (sharedIrqLineChange t.vm x (d.pciIntx i) source b).2.2
        = (sharedIrqLineChange d.vm x (d.pciIntx i) source b).2.2 ∧
      ∀ irq, S irq → (sharedIrqLineChange t.vm x (d.pciIntx i) source b).2.1.level irq
        = (sharedIrqLineChange d.vm x (d.pciIntx i) source b).2.1.level irq := by
    unfold sharedIrqLineChange
    split
    · exact ⟨rfl, rfl, h.level⟩
    · simp only
      split
      · exact ⟨rfl, rfl, h.level⟩
      · refine ⟨by simp only [Vm.setIrqLevel_fst], rfl, ?_⟩
        intro irq hS
        simp only [Vm.setIrqLevel_level _ (d.pciIntx i).irq (hx _)]
        by_cases hirq : irq = (d.pciIntx i).irq
        · rw [hirq, Function.update_self, Function.update_self]
        · rw [Function.update_of_ne hirq, Function.update_of_ne hirq]
          exact h.level irq hS
  obtain ⟨hret, hnew, hlevel⟩ := hboth
  unfold pciIntxChange
  simp only [hline, h.intx]
  exact ⟨hret, h.devs, by rw [hnew], hlevel⟩

variable [DecidableEq β]

theorem addressed_congr (h : t.pciDevs = d.pciDevs) (ioProxy : β) (slot : BitVec 32) :
    addressed t ioProxy slot = addressed d ioProxy slot := by
  unfold addressed
  rw [h]

theorem AlikeOn.intxSet (h : AlikeOn S d t) (hx : ∀ b, x.vmSetIrqLevel b = 0) (ioProxy : β)
    (backendDevfn : BitVec 32) (b : Bool) :
    (pcidevIntxSet t x ioProxy backendDevfn b).1 = (pcidevIntxSet d x ioProxy backendDevfn b).1 ∧
      AlikeOn S (pcidevIntxSet d x ioProxy backendDevfn b).2
        (pcidevIntxSet t x ioProxy backendDevfn b).2 := by
  unfold pcidevIntxSet pcidevFind
  rw [h.devs]
  split
  · exact ⟨rfl, h⟩
  · split
    · exact ⟨rfl, h⟩
    · exact h.change hx _ _ b

theorem AlikeOn.handlePciIntx (h : AlikeOn S d t) (hx : ∀ b, x.vmSetIrqLevel b = 0) (ioProxy : β)
    (backendDevfn irqOp : BitVec 32) :
    (handlePciIntx t x ioProxy backendDevfn irqOp).1
        = (handlePciIntx d x ioProxy backendDevfn irqOp).1 ∧
      AlikeOn S (handlePciIntx d x ioProxy backendDevfn irqOp).2
        (handlePciIntx t x ioProxy backendDevfn irqOp).2 := by
  have hset := h.intxSet hx ioProxy backendDevfn true
  have hclr := h.intxSet hx ioProxy backendDevfn false
  unfold Devices.handlePciIntx
  split
  · exact hset
  · split
    · exact hclr
    · split
      · simp only [hset.1]
        split
        · exact hset
        · exact hset.2.intxSet hx ioProxy backendDevfn false
      · exact ⟨rfl, h⟩

/-- An operation on a PCI device only works on the INTx lines. -/
theorem handlePciIntx_keeps (d : DeviceTables β) (x : Answers) (ioProxy : β)
    (backendDevfn irqOp : BitVec 32) :
    (handlePciIntx d x ioProxy backendDevfn irqOp).2.pciDevs = d.pciDevs ∧
      ∀ irq, (∀ i, irq ≠ (d.pciIntx i).irq) →
        (handlePciIntx d x ioProxy backendDevfn irqOp).2.vm.level irq = d.vm.level irq := by
  have hset : ∀ (d : DeviceTables β) (b : Bool),
      (∀ i, ((pcidevIntxSet d x ioProxy backendDevfn b).2.pciIntx i).irq = (d.pciIntx i).irq) ∧
        ∀ irq, (∀ i, irq ≠ (d.pciIntx i).irq) →
          (pcidevIntxSet d x ioProxy backendDevfn b).2.vm.level irq = d.vm.level irq := by
    intro d b
    rcases pcidevIntxSet_cases d x ioProxy backendDevfn b with ⟨-, hr⟩ | ⟨p, -, hr⟩
    · rw [hr]
      exact ⟨fun _ => rfl, fun _ _ => rfl⟩
    · obtain ⟨hirq, -, hlevel⟩ :=
        pciIntxChange_frame d x (pciMapIrq p) (pciSlot p.devfn).toNat b
      rw [hr]
      exact ⟨hirq, fun irq hout => hlevel irq (hout _)⟩
  have hdevs := pcidevIntxSet_pciDevs d x ioProxy backendDevfn
  unfold handlePciIntx
  split
  · exact ⟨hdevs true, (hset d true).2⟩
  · split
    · exact ⟨hdevs false, (hset d false).2⟩
    · split
      · simp only
        split
        · exact ⟨hdevs true, (hset d true).2⟩
        · refine ⟨(pcidevIntxSet_pciDevs _ x ioProxy backendDevfn false).trans (hdevs true), ?_⟩
          intro irq hout
          obtain ⟨hirq, hlevel⟩ := hset d true
          rw [(hset _ false).2 irq fun i => by rw [hirq i]; exact hout i]
          exact hlevel irq hout
      · exact ⟨rfl, fun _ _ => rfl⟩

/-- The operation is accepted exactly if the backend has such a device. -/
theorem handlePciIntx_accepted {base : BitVec 32} {level : ℕ → Bool} (hi : PciInv base d level)
    (hx : ∀ b, x.vmSetIrqLevel b = 0) (ioProxy : β) (slot : Word) (op : IrqOp) :
    (handlePciIntx d x ioProxy (pciDevfn slot 0#64) op.code).1 = 0 ↔
      (addressed d ioProxy (pciSlot (pciDevfn slot 0#64))).isSome = true := by
  have hset : ∀ {d' : DeviceTables β} {level' : ℕ → Bool}, PciInv base d' level' →
      d'.pciDevs = d.pciDevs → ∀ b,
      (pcidevIntxSet d' x ioProxy (pciDevfn slot 0#64) b).1 = 0 ↔
        (addressed d ioProxy (pciSlot (pciDevfn slot 0#64))).isSome = true := by
    intro d' level' hi' hdevs b
    have haddressed := addressed_congr hdevs ioProxy (pciSlot (pciDevfn slot 0#64))
    cases hk : addressed d ioProxy (pciSlot (pciDevfn slot 0#64)) with
    | none =>
        rw [pcidevIntxSet_none hi' x b (haddressed.trans hk)]
        simp
    | some k =>
        obtain ⟨p, -, hok, -⟩ := pcidevIntxSet_some hi' hx b (haddressed.trans hk)
        simp [hok]
  cases op with
  | clr => exact hset hi rfl false
  | set => exact hset hi rfl true
  | pulse =>
      have hfirst := hset hi rfl true
      show (if (pcidevIntxSet d x ioProxy (pciDevfn slot 0#64) true).1 ≠ 0 then _ else _ :
        ℤ × DeviceTables β).1 = 0 ↔ _
      cases hk : addressed d ioProxy (pciSlot (pciDevfn slot 0#64)) with
      | none =>
          rw [pcidevIntxSet_none hi x true hk, if_pos (show (-1 : ℤ) ≠ 0 by decide)]
          simp
      | some k =>
          obtain ⟨p, hp, hok, hr⟩ := pcidevIntxSet_some hi hx true hk
          have hnext := hi.command hx hp true
          rw [← hr] at hnext
          rw [if_neg (not_not_intro hok), ← hk]
          exact hset hnext (pcidevIntxSet_pciDevs d x ioProxy _ true) false

end Pci

/-! ### The log and the levels -/

section Levels

variable {β : Type} [DecidableEq β]

/-- What the log says of the registered devices; a device that is not found by its backend and slot
stays low. -/
def deviceLevels (log : List (Source β × Bool)) (d : DeviceTables β) (k : ℕ) : Bool :=
  match d.pciDevs[k]? with
  | some p =>
      decide (addressed d p.ioProxy (pciSlot p.backendDevfn) = some k ∧
        last log (.pci p.ioProxy (pciSlot p.backendDevfn)) = some true)
  | none => false

/-- The levels follow the log. -/
structure LevelsInv (base : BitVec 32) (log : List (Source β × Bool)) (d : DeviceTables β) :
    Prop where
  /-- the INTx lines, as long as they are not driven by number -/
  devices : ∃ t, AlikeOn (fun irq => last log (.number irq) = none) d t ∧
    PciInv base t (deviceLevels log d)
  numbers : ∀ irq, ¬ IsIntx base irq →
    (d.vm.level irq = true ↔ last log (.number irq) = some true)
  /-- no command is accepted for a device that is not there -/
  unheard : ∀ ioProxy slot, addressed d ioProxy slot = none → last log (.pci ioProxy slot) = none

variable {base : BitVec 32} {log : List (Source β × Bool)} {d d' : DeviceTables β}

theorem addressed_device {ioProxy : β} {slot : BitVec 32} {k : ℕ}
    (h : addressed d ioProxy slot = some k) :
    ∃ p, d.pciDevs[k]? = some p ∧ p.ioProxy = ioProxy ∧ pciSlot p.backendDevfn = slot := by
  obtain ⟨hlt, hkey, -⟩ := List.findIdx?_eq_some_iff_getElem.mp h
  simp only [Bool.decide_and, Bool.and_eq_true, decide_eq_true_eq] at hkey
  exact ⟨_, List.getElem?_eq_getElem hlt, hkey⟩

theorem deviceLevels_iff {k : ℕ} :
    deviceLevels log d k = true ↔ ∃ (ioProxy : β) (slot : BitVec 32),
      addressed d ioProxy slot = some k ∧ last log (.pci ioProxy slot) = some true := by
  unfold deviceLevels
  constructor
  · intro h
    split at h
    · rename_i p hp
      exact ⟨p.ioProxy, pciSlot p.backendDevfn, of_decide_eq_true h⟩
    · cases h
  · rintro ⟨ioProxy, slot, hk, hlast⟩
    obtain ⟨p, hp, rfl, rfl⟩ := addressed_device hk
    rw [hp]
    exact decide_eq_true ⟨hk, hlast⟩

/-- A command to a device sets its level. -/
theorem deviceLevels_command {ioProxy : β} {slot : BitVec 32} {k : ℕ}
    (hk : addressed d ioProxy slot = some k) (b : Bool) (hdevs : d'.pciDevs = d.pciDevs) :
    deviceLevels (log ++ [(.pci ioProxy slot, b)]) d'
      = Function.update (deviceLevels log d) k b := by
  have haddressed := addressed_congr hdevs
  funext l
  apply Bool.eq_iff_iff.mpr
  rw [deviceLevels_iff]
  simp only [haddressed]
  by_cases hl : l = k
  · subst hl
    rw [Function.update_self]
    constructor
    · rintro ⟨io, s, hs, hlast⟩
      -- the device at the index has one backend and slot
      have hsame : Source.pci io s = .pci ioProxy slot := by
        obtain ⟨p, hp, rfl, rfl⟩ := addressed_device hs
        obtain ⟨q, hq, rfl, rfl⟩ := addressed_device hk
        rw [Option.some.inj (hp.symm.trans hq)]
      rw [hsame, last_snoc_self] at hlast
      exact Option.some.inj hlast
    · intro hb
      exact ⟨ioProxy, slot, hk, by rw [last_snoc_self, hb]⟩
  · rw [Function.update_of_ne hl, deviceLevels_iff]
    have hother : ∀ io s, addressed d io s = some l →
        last (log ++ [(Source.pci ioProxy slot, b)]) (.pci io s) = last log (.pci io s) := by
      intro io s hs
      apply last_snoc_of_ne
      intro he
      cases he
      rw [hk] at hs
      exact hl (Option.some.inj hs).symm
    constructor
    · rintro ⟨io, s, hs, hlast⟩
      exact ⟨io, s, hs, by rw [← hother io s hs]; exact hlast⟩
    · rintro ⟨io, s, hs, hlast⟩
      exact ⟨io, s, hs, by rw [hother io s hs]; exact hlast⟩

/-- What is found among the first devices is found with one more. -/
theorem addressed_append {new : Pcidev β} (hdevs : d'.pciDevs = d.pciDevs ++ [new]) (ioProxy : β)
    (slot : BitVec 32) :
    addressed d' ioProxy slot = addressed d ioProxy slot ∨
      (addressed d ioProxy slot = none ∧ addressed d' ioProxy slot = some d.pciDevs.length) := by
  unfold addressed
  rw [hdevs, List.findIdx?_append]
  cases h : d.pciDevs.findIdx? fun p => p.ioProxy = ioProxy ∧ pciSlot p.backendDevfn = slot with
  | some k => exact Or.inl rfl
  | none =>
      by_cases hnew : new.ioProxy = ioProxy ∧ pciSlot new.backendDevfn = slot
      · right
        simp [List.findIdx?_cons, hnew]
      · left
        simpa [List.findIdx?_cons] using hnew

/-- A registration leaves what the log says. -/
theorem deviceLevels_append {new : Pcidev β} (hdevs : d'.pciDevs = d.pciDevs ++ [new])
    (hunheard : ∀ ioProxy slot, addressed d ioProxy slot = none →
      last log (.pci ioProxy slot) = none) : deviceLevels log d' = deviceLevels log d := by
  funext k
  apply Bool.eq_iff_iff.mpr
  rw [deviceLevels_iff, deviceLevels_iff]
  constructor
  · rintro ⟨io, s, hs, hlast⟩
    rcases addressed_append hdevs io s with hsame | ⟨hnone, -⟩
    · exact ⟨io, s, by rw [← hsame]; exact hs, hlast⟩
    · rw [hunheard io s hnone] at hlast
      cases hlast
  · rintro ⟨io, s, hs, hlast⟩
    rcases addressed_append hdevs io s with hsame | ⟨hnone, -⟩
    · exact ⟨io, s, by rw [hsame]; exact hs, hlast⟩
    · rw [hs] at hnone
      cases hnone

/-! ### Steps -/

variable {x : Answers} {ioProxy : β}

theorem deviceLevels_congr (hdevs : d'.pciDevs = d.pciDevs)
    {log' : List (Source β × Bool)}
    (hlog : ∀ io slot, last log' (.pci io slot) = last log (.pci io slot)) :
    deviceLevels log' d' = deviceLevels log d := by
  funext k
  apply Bool.eq_iff_iff.mpr
  simp only [deviceLevels_iff, addressed_congr hdevs, hlog]

omit [DecidableEq β] in
/-- A registration looks at the number of devices only. -/
theorem AlikeOn.register {S : BitVec 32 → Prop} {t : DeviceTables β} (h : AlikeOn S d t)
    (x : Answers) (ioProxy : β) (backendDevfn : BitVec 32) :
    AlikeOn S (pcidevRegister d x ioProxy backendDevfn).2
      (pcidevRegister t x ioProxy backendDevfn).2 := by
  unfold pcidevRegister
  rw [h.devs]
  split
  · exact h
  · split
    · exact h
    · split
      · exact h
      · exact ⟨rfl, h.intx, h.level⟩

/-- An event without effect on the interrupts. -/
theorem LevelsInv.quiet (hi : LevelsInv base log d) (hdevs : d'.pciDevs = d.pciDevs)
    (hintx : d'.pciIntx = d.pciIntx) (hlevel : d'.vm.level = d.vm.level) :
    LevelsInv base log d' := by
  obtain ⟨t, halike, ht⟩ := hi.devices
  refine ⟨⟨t, ⟨halike.devs.trans hdevs.symm, halike.intx.trans hintx.symm, ?_⟩, ?_⟩, ?_, ?_⟩
  · intro irq hirq
    rw [hlevel]
    exact halike.level irq hirq
  · rw [deviceLevels_congr hdevs fun _ _ => rfl]
    exact ht
  · intro irq hirq
    rw [hlevel]
    exact hi.numbers irq hirq
  · intro io slot hnone
    exact hi.unheard io slot (by rw [← addressed_congr hdevs]; exact hnone)

/-- A registered device is low. -/
theorem LevelsInv.register (hi : LevelsInv base log d) {slot : Word}
    (hdev : x.vmmPciAddEntry = 0 → x.pciDev.toNat < pciNumSlots ∧
      ∀ p ∈ d.pciDevs, (pciSlot p.devfn).toNat ≠ x.pciDev.toNat) :
    LevelsInv base log (pcidevRegister d x ioProxy (pciDevfn slot 0#64)).2 := by
  obtain ⟨t, halike, ht⟩ := hi.devices
  have hnext : PciInv base (pcidevRegister t x ioProxy (pciDevfn slot 0#64)).2
      (deviceLevels log d) := ht.register (by rw [halike.devs]; exact hdev)
  have halike' := halike.register x ioProxy (pciDevfn slot 0#64)
  rcases pcidevRegister_cases d x ioProxy (pciDevfn slot 0#64) with hr | ⟨-, hr⟩
  · rw [hr]
    exact hi
  · have hdevs : (pcidevRegister d x ioProxy (pciDevfn slot 0#64)).2.pciDevs
        = d.pciDevs ++ [⟨pciDevfn (x.pciDev.setWidth 64) (x.pciFun.setWidth 64),
          pciDevfn slot 0#64, ioProxy⟩] := by
      rw [hr]
    have hlevel : (pcidevRegister d x ioProxy (pciDevfn slot 0#64)).2.vm.level = d.vm.level := by
      rw [hr]
    refine ⟨⟨_, halike', ?_⟩, ?_, ?_⟩
    · rw [deviceLevels_append hdevs hi.unheard]
      exact hnext
    · intro irq hirq
      rw [hlevel]
      exact hi.numbers irq hirq
    · intro io s hnone
      rcases addressed_append hdevs io s with hsame | ⟨-, hnew⟩
      · exact hi.unheard io s (by rw [← hsame]; exact hnone)
      · rw [hnew] at hnone
        cases hnone

/-- An interrupt is driven by its number. -/
theorem LevelsInv.number (hi : LevelsInv base log d) (irq : BitVec 32) (b : Bool)
    (hdevs : d'.pciDevs = d.pciDevs) (hintx : d'.pciIntx = d.pciIntx)
    (hlevel : d'.vm.level = Function.update d.vm.level irq b) :
    LevelsInv base (log ++ [(.number irq, b)]) d' := by
  have hpci : ∀ io slot, last (log ++ [(Source.number irq, b)]) (.pci io slot)
      = last log (.pci io slot) := by
    intro io slot
    apply last_snoc_of_ne
    intro he
    cases he
  have hother : ∀ irq', irq' ≠ irq → last (log ++ [(Source.number irq, b)]) (.number irq')
      = last log (.number irq') := by
    intro irq' hne
    apply last_snoc_of_ne
    intro he
    cases he
    exact hne rfl
  obtain ⟨t, halike, ht⟩ := hi.devices
  refine ⟨⟨t, ⟨halike.devs.trans hdevs.symm, halike.intx.trans hintx.symm, ?_⟩, ?_⟩, ?_, ?_⟩
  · intro irq' hnone
    have hne : irq' ≠ irq := by
      intro he
      rw [he, last_snoc_self] at hnone
      cases hnone
    rw [hother irq' hne] at hnone
    rw [hlevel, Function.update_of_ne hne]
    exact halike.level irq' hnone
  · rw [deviceLevels_congr hdevs hpci]
    exact ht
  · intro irq' hout
    rw [hlevel]
    by_cases he : irq' = irq
    · rw [he, Function.update_self, last_snoc_self, Option.some_inj]
    · rw [Function.update_of_ne he, hother irq' he]
      exact hi.numbers irq' hout
  · intro io slot hnone
    rw [hpci]
    exact hi.unheard io slot (by rw [← addressed_congr hdevs]; exact hnone)

/-- **A PCI interrupt.**  Its command is in the log exactly if the backend has the device. -/
theorem LevelsInv.pci (hi : LevelsInv base log d) (hx : ∀ b, x.vmSetIrqLevel b = 0)
    {irq : BitVec 32} (op : IrqOp) (hirq : irqIsPci irq = true) :
    LevelsInv base
      (log ++ (if (handlePciIntx d x ioProxy (pciDevfn (irq.setWidth 64) 0#64) op.code).1 = 0 then
        some (Source.pci ioProxy irq, op.level) else none).toList)
      (handlePciIntx d x ioProxy (pciDevfn (irq.setWidth 64) 0#64) op.code).2 := by
  have hslot : pciSlot (pciDevfn (irq.setWidth 64) 0#64) = irq := by
    have hback : (irq.setWidth 64).setWidth 32 = irq := by simp
    rw [pciSlot_of_irqIsPci (by rw [hback]; exact hirq), hback]
  obtain ⟨t, halike, ht⟩ := hi.devices
  obtain ⟨hret, halike'⟩ :=
    halike.handlePciIntx hx ioProxy (pciDevfn (irq.setWidth 64) 0#64) op.code
  obtain ⟨hdevs, hlevel⟩ :=
    handlePciIntx_keeps d x ioProxy (pciDevfn (irq.setWidth 64) 0#64) op.code
  have haccepted := handlePciIntx_accepted ht hx ioProxy (irq.setWidth 64) op
  have haddressed := addressed_congr halike.devs ioProxy irq
  rw [hslot, haddressed, hret] at haccepted
  -- the lines have the interrupts of `irq_init`
  have hnumbers : ∀ irq', ¬ IsIntx base irq' →
      ((handlePciIntx d x ioProxy (pciDevfn (irq.setWidth 64) 0#64) op.code).2.vm.level irq' = true
        ↔ last log (.number irq') = some true) := by
    intro irq' hout
    rw [hlevel irq' fun i he => hout ⟨i, by rw [he, ← halike.intx, ht.base i]⟩]
    exact hi.numbers irq' hout
  cases hk : addressed d ioProxy irq with
  | none =>
      have hno : ¬ (handlePciIntx d x ioProxy (pciDevfn (irq.setWidth 64) 0#64) op.code).1 = 0 := by
        rw [haccepted, hk]
        exact Bool.false_ne_true
      have hsame := handlePciIntx_none ht x op.code (by rw [hslot, haddressed]; exact hk)
      rw [if_neg hno, Option.toList_none, List.append_nil]
      refine ⟨⟨_, halike', ?_⟩, hnumbers, ?_⟩
      · rw [hsame, deviceLevels_congr hdevs fun _ _ => rfl]
        exact ht
      · intro io slot hnone
        exact hi.unheard io slot (by rw [← addressed_congr hdevs]; exact hnone)
  | some k =>
      have hyes : (handlePciIntx d x ioProxy (pciDevfn (irq.setWidth 64) 0#64) op.code).1 = 0 := by
        rw [haccepted, hk]
        rfl
      have hevent := ht.intxEvent hx op.code (by rw [hslot, haddressed]; exact hk)
      rw [commandedLevel_code] at hevent
      have hnumber : ∀ irq', last (log ++ [(Source.pci ioProxy irq, op.level)]) (.number irq')
          = last log (.number irq') := by
        intro irq'
        apply last_snoc_of_ne
        intro he
        cases he
      rw [if_pos hyes, Option.toList_some]
      refine ⟨⟨_, ⟨halike'.devs, halike'.intx, ?_⟩, ?_⟩, ?_, ?_⟩
      · intro irq' hnone
        rw [hnumber] at hnone
        exact halike'.level irq' hnone
      · rw [deviceLevels_command hk op.level hdevs]
        exact hevent
      · intro irq' hout
        rw [hnumber]
        exact hnumbers irq' hout
      · intro io slot hnone
        rw [addressed_congr hdevs] at hnone
        have hne : Source.pci io slot ≠ .pci ioProxy irq := by
          intro he
          cases he
          rw [hk] at hnone
          cases hnone
        rw [last_snoc_of_ne _ _ hne]
        exact hi.unheard io slot hnone

/-- **Step.** -/
theorem LevelsInv.step (hi : LevelsInv base log d) (hx : ∀ b, x.vmSetIrqLevel b = 0)
    {registers : Prop} {c : Option (Source β × Bool)} (he : Effect x ioProxy registers d c d')
    (hdev : registers → x.vmmPciAddEntry = 0 → x.pciDev.toNat < pciNumSlots ∧
      ∀ p ∈ d.pciDevs, (pciSlot p.devfn).toNat ≠ x.pciDev.toNat) :
    LevelsInv base (log ++ c.toList) d' := by
  cases he with
  | quiet hdevs hintx hlevel =>
      rw [Option.toList_none, List.append_nil]
      exact hi.quiet hdevs hintx hlevel
  | register slot may =>
      rw [Option.toList_none, List.append_nil]
      exact hi.register (hdev may)
  | number irq b hdevs hintx hlevel => exact hi.number irq b hdevs hintx hlevel
  | pci irq op hpci => exact hi.pci hx op hpci

end Levels

end TiiSel4Vm.Devices
