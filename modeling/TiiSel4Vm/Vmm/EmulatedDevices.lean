import TiiSel4Vm.Vmm.Init

/-!
# Emulated devices

Backends assign and free MMIO regions and drive interrupts by number.  The tables are lists that are
searched and trimmed by comparison functions, and every entry names its backend.

* `EmudevInv` — the MMIO table lists the VM's reservations that `mmio_res_assign` made, in the order
  in which they were made, and the IRQ table has no line twice;
* `emudev_isolation` — over any run of events a backend frees exactly its own regions, and an event
  moves only the interrupt line that it names.
-/

namespace TiiSel4Vm.Devices

open TiiSel4Vm.Transition TiiSel4Vm.RpcQueue

section Emudev

variable {β : Type}

/-! ### What the functions do -/

/-- The VM's side of a reservation. -/
def MmioReservation.region (m : MmioReservation β) : Region := ⟨m.res, m.addr, m.size⟩

/-- What a line is looked up by. -/
def IrqLine.key (l : IrqLine β) : β × BitVec 32 := (l.cookie, l.irq)

/-- Allocations, `list_append`, `vm_register_irq` and `vm_reservation_free` succeed. -/
structure Answers.Orderly (x : Answers) : Prop where
  calloc : x.calloc = true
  listAppend : x.listAppend = 0
  vmRegisterIrq : x.vmRegisterIrq = 0
  vmReservationFree : x.vmReservationFree = 0

/-- What `mmio_res_assign` does when only `vm_reserve_memory_at` may fail. -/
theorem mmioResAssign_cases (d : DeviceTables β) {x : Answers} (hx : x.Orderly) (ioProxy : β)
    (addr size : Word) :
    (x.vmReserveMemoryAt = false ∧ mmioResAssign d x ioProxy addr size = (-1, d)) ∨
      (x.vmReserveMemoryAt = true ∧ mmioResAssign d x ioProxy addr size
        = (0, { d with
                  vm := { d.vm with
                            reserved := d.vm.reserved ++ [⟨d.vm.nextRes, addr, size⟩]
                            nextRes := d.vm.nextRes + 1 }
                  mmioReservations := d.mmioReservations ++
                    [⟨addr, size, d.vm.nextRes, ioProxy⟩] })) := by
  unfold mmioResAssign Vm.reserve
  cases hr : x.vmReserveMemoryAt with
  | false => exact Or.inl ⟨rfl, by simp⟩
  | true => exact Or.inr ⟨rfl, by simp [hx.calloc, hx.listAppend]⟩

variable [DecidableEq β]

/-- What `mmio_res_free` does: the reservation that it finds is the one that it removes. -/
theorem mmioResFree_cases (d : DeviceTables β) (x : Answers) (ioProxy : β) (addr size : Word) :
    ((∀ m ∈ d.mmioReservations, ¬ m.Is ioProxy addr size = true) ∧
        mmioResFree d x ioProxy addr size = (-1, d)) ∨
      ∃ pre m post, d.mmioReservations = pre ++ m :: post ∧ m.Is ioProxy addr size = true ∧
        mmioResFree d x ioProxy addr size
          = (x.vmReservationFree, { d with vm := (d.vm.release x.vmReservationFree m.res).2
                                           mmioReservations := pre ++ post }) := by
  unfold mmioResFree
  cases hf : d.mmioReservations.find? fun m => m.Is ioProxy addr size with
  | none => exact Or.inl ⟨fun m hm => List.find?_eq_none.mp hf m hm, rfl⟩
  | some m =>
      obtain ⟨hm, pre, post, hsplit, hpre⟩ := List.find?_eq_some_iff_append.mp hf
      have hno : ∀ a ∈ pre, ¬ a.Is ioProxy addr size = true := by
        intro a ha
        simpa using hpre a ha
      have herase : d.mmioReservations.eraseP (fun m => m.Is ioProxy addr size) = pre ++ post := by
        have hhead :
            (m :: post).eraseP (fun m : MmioReservation β => m.Is ioProxy addr size) = post :=
          List.eraseP_cons_of_pos (p := fun m : MmioReservation β => m.Is ioProxy addr size) hm
        rw [hsplit, List.eraseP_append_right _ hno, hhead]
      refine Or.inr ⟨pre, m, post, hsplit, hm, ?_⟩
      simp only [Vm.release_fst, herase]

/-- The tables once the line of an interrupt event is registered. -/
def withLine (d : DeviceTables β) (ioProxy : β) (irq : BitVec 32) : DeviceTables β :=
  if (irqResFind d ioProxy irq).isSome then d
  else { d with vm := { d.vm with registered := d.vm.registered ++ [irq] }
                irqs := d.irqs ++ [⟨irq, ioProxy⟩] }

/-- What `emudev_irq_set` does: it works on the line of the backend and interrupt it is called
with. -/
theorem emudevIrqSet_cases (d : DeviceTables β) {x : Answers} (hx : x.Orderly) (ioProxy : β)
    (irq op : BitVec 32) :
    (irqIsEmulatedDevice irq = false ∧ emudevIrqSet d x ioProxy irq op = (-1, d)) ∨
      (⟨irq, ioProxy⟩ ∈ (withLine d ioProxy irq).irqs ∧
        emudevIrqSet d x ioProxy irq op
          = emudevIrqOp (withLine d ioProxy irq) x ⟨irq, ioProxy⟩ op) := by
  unfold emudevIrqSet withLine
  cases hemu : irqIsEmulatedDevice irq with
  | false => exact Or.inl ⟨rfl, rfl⟩
  | true =>
      apply Or.inr
      cases hf : irqResFind d ioProxy irq with
      | some line =>
          have hkey := List.find?_some hf
          simp only [Bool.decide_and, Bool.and_eq_true, decide_eq_true_eq] at hkey
          have hline : line = ⟨irq, ioProxy⟩ := by
            cases line
            simp only [IrqLine.mk.injEq]
            exact hkey
          rw [hline] at hf ⊢
          exact ⟨List.mem_of_find?_eq_some hf, rfl⟩
      | none =>
          have hnew : irqResFind { d with
              vm := { d.vm with registered := d.vm.registered ++ [irq] }
              irqs := d.irqs ++ [⟨irq, ioProxy⟩] } ioProxy irq = some ⟨irq, ioProxy⟩ := by
            unfold irqResFind at hf ⊢
            rw [List.find?_append, hf]
            simp
          have hassign : irqResAssign d x ioProxy irq
              = (0, { d with vm := { d.vm with registered := d.vm.registered ++ [irq] }
                             irqs := d.irqs ++ [⟨irq, ioProxy⟩] }) := by
            simp [irqResAssign, Vm.registerIrq, hx.calloc, hx.vmRegisterIrq, hx.listAppend]
          refine ⟨List.mem_append_right _ (List.mem_singleton.mpr rfl), ?_⟩
          simp only [hassign, hnew]
          rfl

omit [DecidableEq β] in
/-- Working on a line changes the level of its interrupt and nothing else. -/
theorem emudevIrqOp_frame (d : DeviceTables β) (x : Answers) (line : IrqLine β) (op : BitVec 32) :
    (emudevIrqOp d x line op).2.irqs = d.irqs ∧
      (emudevIrqOp d x line op).2.mmioReservations = d.mmioReservations ∧
      (emudevIrqOp d x line op).2.vm.reserved = d.vm.reserved ∧
      (emudevIrqOp d x line op).2.vm.nextRes = d.vm.nextRes ∧
      ∀ irq, irq ≠ line.irq → (emudevIrqOp d x line op).2.vm.level irq = d.vm.level irq := by
  have hchange : ∀ (d : DeviceTables β) (b : Bool),
      (irqLineChange d x line b).2.irqs = d.irqs ∧
        (irqLineChange d x line b).2.mmioReservations = d.mmioReservations ∧
        (irqLineChange d x line b).2.vm.reserved = d.vm.reserved ∧
        (irqLineChange d x line b).2.vm.nextRes = d.vm.nextRes ∧
        ∀ irq, irq ≠ line.irq → (irqLineChange d x line b).2.vm.level irq = d.vm.level irq := by
    intro d b
    have hother : ∀ irq, irq ≠ line.irq →
        (irqLineChange d x line b).2.vm.level irq = d.vm.level irq :=
      fun irq hirq => Vm.setIrqLevel_other d.vm x.vmSetIrqLevel b hirq
    refine ⟨rfl, rfl, ?_, ?_, hother⟩
    · show (d.vm.setIrqLevel _ _ _).2.reserved = _
      unfold Vm.setIrqLevel
      split
      · rfl
      · rfl
    · show (d.vm.setIrqLevel _ _ _).2.nextRes = _
      unfold Vm.setIrqLevel
      split
      · rfl
      · rfl
  unfold emudevIrqOp
  split
  · exact hchange d true
  · split
    · exact hchange d false
    · split
      · rw [irqLinePulse_eq]
        split
        · exact hchange d true
        · obtain ⟨hirqs, hmmio, hres, hnext, hlevel⟩ := hchange d true
          obtain ⟨hirqs', hmmio', hres', hnext', hlevel'⟩ :=
            hchange (irqLineChange d x line true).2 false
          exact ⟨hirqs'.trans hirqs, hmmio'.trans hmmio, hres'.trans hres, hnext'.trans hnext,
            fun irq hirq => (hlevel' irq hirq).trans (hlevel irq hirq)⟩
      · exact ⟨rfl, rfl, rfl, rfl, fun _ _ => rfl⟩

theorem withLine_frame (d : DeviceTables β) (ioProxy : β) (irq : BitVec 32) :
    (withLine d ioProxy irq).mmioReservations = d.mmioReservations ∧
      (withLine d ioProxy irq).vm.reserved = d.vm.reserved ∧
      (withLine d ioProxy irq).vm.nextRes = d.vm.nextRes ∧
      (withLine d ioProxy irq).vm.level = d.vm.level := by
  unfold withLine
  split
  · exact ⟨rfl, rfl, rfl, rfl⟩
  · exact ⟨rfl, rfl, rfl, rfl⟩

/-- `emudev_irq_set` leaves the regions and the levels of the other interrupts. -/
theorem emudevIrqSet_frame (d : DeviceTables β) {x : Answers} (hx : x.Orderly) (ioProxy : β)
    (irq op : BitVec 32) :
    (emudevIrqSet d x ioProxy irq op).2.mmioReservations = d.mmioReservations ∧
      (emudevIrqSet d x ioProxy irq op).2.vm.reserved = d.vm.reserved ∧
      (emudevIrqSet d x ioProxy irq op).2.vm.nextRes = d.vm.nextRes ∧
      ∀ irq', irq' ≠ irq →
        (emudevIrqSet d x ioProxy irq op).2.vm.level irq' = d.vm.level irq' := by
  rcases emudevIrqSet_cases d hx ioProxy irq op with ⟨-, hr⟩ | ⟨-, hr⟩
  · rw [hr]
    exact ⟨rfl, rfl, rfl, fun _ _ => rfl⟩
  · obtain ⟨hmmio, hres, hnext, hlevel⟩ := withLine_frame d ioProxy irq
    obtain ⟨-, hmmio', hres', hnext', hlevel'⟩ :=
      emudevIrqOp_frame (withLine d ioProxy irq) x ⟨irq, ioProxy⟩ op
    rw [hr]
    refine ⟨hmmio'.trans hmmio, hres'.trans hres, hnext'.trans hnext, ?_⟩
    intro irq' hirq
    rw [hlevel' irq' hirq, hlevel]

/-- `emudev_mmio_config` leaves the lines and the levels. -/
theorem emudevMmioConfig_frame (d : DeviceTables β) {x : Answers} (hx : x.Orderly) (ioProxy : β)
    (addr size flags : Word) :
    (emudevMmioConfig d x ioProxy addr size flags).2.irqs = d.irqs ∧
      (emudevMmioConfig d x ioProxy addr size flags).2.vm.level = d.vm.level := by
  unfold emudevMmioConfig
  split
  · exact ⟨rfl, rfl⟩
  · split
    · rcases mmioResFree_cases d x ioProxy addr size with ⟨-, hr⟩ | ⟨pre, m, post, -, -, hr⟩
      · rw [hr]
        exact ⟨rfl, rfl⟩
      · rw [hr, hx.vmReservationFree]
        exact ⟨rfl, rfl⟩
    · rcases mmioResAssign_cases d hx ioProxy addr size with ⟨-, hr⟩ | ⟨-, hr⟩
      · rw [hr]
        exact ⟨rfl, rfl⟩
      · rw [hr]
        exact ⟨rfl, rfl⟩

/-- A line is registered when there is none. -/
theorem withLine_nodup {d : DeviceTables β} (h : (d.irqs.map IrqLine.key).Nodup) (ioProxy : β)
    (irq : BitVec 32) : ((withLine d ioProxy irq).irqs.map IrqLine.key).Nodup := by
  unfold withLine
  split
  · exact h
  · rename_i hnone
    show ((d.irqs ++ [(⟨irq, ioProxy⟩ : IrqLine β)]).map IrqLine.key).Nodup
    rw [List.map_append, List.nodup_append]
    refine ⟨h, List.nodup_singleton _, ?_⟩
    intro a ha b hb hab
    obtain ⟨l, hl, rfl⟩ := List.mem_map.mp ha
    rw [List.map_singleton, List.mem_singleton] at hb
    rw [hb] at hab
    apply hnone
    apply irqResFind_isSome_iff.mpr
    have hcookie : l.cookie = ioProxy := congrArg Prod.fst hab
    have hirq : l.irq = irq := congrArg Prod.snd hab
    exact ⟨l, hl, hirq, hcookie⟩

/-! ### Runs of events -/

/-- An event for emulated devices. -/
structure EmudevEvent (β : Type) where
  x : Answers
  ioProxy : β
  op : Word
  msg : RpcMsg

def EmudevEvent.run (e : EmudevEvent β) (d : DeviceTables β) : RpcmsgRc × DeviceTables β :=
  handleEmudev e.x e.ioProxy e.op e.msg d

/-- Orderly events after one `emudev_init`; `before` are the reservations that the VM has then. -/
def emudevLts (before : List Region) : Lts (DeviceTables β) (EmudevEvent β) where
  init d := ∃ d₀ x, emudevInit d₀ x = (0, d) ∧ d.vm.reserved = before ∧
    ∀ r ∈ before, r.res < d.vm.nextRes
  step d e d' := e.x.Orderly ∧ (e.run d).2 = d'

/-- The MMIO table lists the reservations made since, and no line is there twice. -/
structure EmudevInv (before : List Region) (d : DeviceTables β) : Prop where
  reserved : d.vm.reserved = before ++ d.mmioReservations.map MmioReservation.region
  fresh : ∀ r ∈ d.vm.reserved, r.res < d.vm.nextRes
  ids : (d.mmioReservations.map MmioReservation.res).Nodup
  own : ∀ m ∈ d.mmioReservations, ∀ r ∈ before, r.res ≠ m.res
  lines : (d.irqs.map IrqLine.key).Nodup

omit [DecidableEq β] in
/-- **An assigned region.** -/
theorem EmudevInv.assign {before : List Region} {d : DeviceTables β} (hi : EmudevInv before d)
    {x : Answers} (hx : x.Orderly) (ioProxy : β) (addr size : Word) :
    EmudevInv before (mmioResAssign d x ioProxy addr size).2 := by
  rcases mmioResAssign_cases d hx ioProxy addr size with ⟨-, hr⟩ | ⟨-, hr⟩
  · rw [hr]
    exact hi
  · rw [hr]
    refine ⟨?_, ?_, ?_, ?_, hi.lines⟩
    · show d.vm.reserved ++ _ = before ++ (d.mmioReservations ++ _).map _
      rw [hi.reserved, List.map_append, List.append_assoc]
      rfl
    · intro r hr
      show r.res < d.vm.nextRes + 1
      rcases List.mem_append.mp hr with hold | hnew
      · exact Nat.lt_succ_of_lt (hi.fresh r hold)
      · rw [List.mem_singleton.mp hnew]
        exact Nat.lt_succ_self _
    · show ((d.mmioReservations ++ [_]).map MmioReservation.res).Nodup
      rw [List.map_append, List.nodup_append]
      refine ⟨hi.ids, List.nodup_singleton _, ?_⟩
      intro a ha b hb hab
      obtain ⟨m, hm, rfl⟩ := List.mem_map.mp ha
      rw [List.map_singleton, List.mem_singleton] at hb
      have hlt : m.region.res < d.vm.nextRes := by
        apply hi.fresh
        rw [hi.reserved]
        exact List.mem_append_right _ (List.mem_map_of_mem hm)
      rw [hb] at hab
      exact Nat.ne_of_lt hlt hab
    · intro m hm r hr
      rcases List.mem_append.mp hm with hold | hnew
      · exact hi.own m hold r hr
      · rw [List.mem_singleton.mp hnew]
        have hlt : r.res < d.vm.nextRes := by
          apply hi.fresh
          rw [hi.reserved]
          exact List.mem_append_left _ hr
        exact Nat.ne_of_lt hlt

omit [DecidableEq β] in
/-- Releasing a listed reservation takes it from the VM's. -/
theorem EmudevInv.release {before : List Region} {d : DeviceTables β} (hi : EmudevInv before d)
    {pre post : List (MmioReservation β)} {m : MmioReservation β}
    (hsplit : d.mmioReservations = pre ++ m :: post) :
    (d.vm.release 0 m.res).2.reserved = before ++ (pre ++ post).map MmioReservation.region := by
  have hids := hi.ids
  rw [hsplit, List.map_append, List.map_cons, List.nodup_middle, List.nodup_cons] at hids
  have hm : m ∈ d.mmioReservations := by
    rw [hsplit]
    exact List.mem_append_right _ List.mem_cons_self
  have hkeep : ∀ l : List Region, (∀ r ∈ l, r.res ≠ m.res) →
      l.filter (fun r => r.res ≠ m.res) = l := by
    intro l hl
    apply List.filter_eq_self.mpr
    intro r hr
    simpa using hl r hr
  have hothers : ∀ l : List (MmioReservation β), (∀ a ∈ l, a ∈ pre ++ post) →
      ∀ r ∈ l.map MmioReservation.region, r.res ≠ m.res := by
    intro l hl r hr
    obtain ⟨a, ha, rfl⟩ := List.mem_map.mp hr
    intro he
    apply hids.1
    rw [← List.map_append]
    exact List.mem_map.mpr ⟨a, hl a ha, he⟩
  show d.vm.reserved.filter (fun r => r.res ≠ m.res) = _
  rw [hi.reserved, hsplit, List.map_append, List.map_cons, List.filter_append, List.filter_append,
    List.filter_cons_of_neg (by simp [MmioReservation.region]), hkeep before (hi.own m hm),
    hkeep _ (hothers pre fun a ha => List.mem_append_left _ ha),
    hkeep _ (hothers post fun a ha => List.mem_append_right _ ha), List.map_append]

/-- **A freed region.** -/
theorem EmudevInv.free {before : List Region} {d : DeviceTables β} (hi : EmudevInv before d)
    {x : Answers} (hx : x.Orderly) (ioProxy : β) (addr size : Word) :
    EmudevInv before (mmioResFree d x ioProxy addr size).2 := by
  rcases mmioResFree_cases d x ioProxy addr size with ⟨-, hr⟩ | ⟨pre, m, post, hsplit, -, hr⟩
  · rw [hr]
    exact hi
  · have hreserved := hi.release hsplit
    have hids := hi.ids
    rw [hsplit, List.map_append, List.map_cons, List.nodup_middle, List.nodup_cons] at hids
    have hsub : ∀ a ∈ pre ++ post, a ∈ d.mmioReservations := by
      intro a ha
      rw [hsplit]
      rcases List.mem_append.mp ha with h | h
      · exact List.mem_append_left _ h
      · exact List.mem_append_right _ (List.mem_cons_of_mem _ h)
    rw [hr, hx.vmReservationFree]
    refine ⟨hreserved, ?_, ?_, ?_, hi.lines⟩
    · intro r hr
      have hmem : r ∈ d.vm.reserved.filter (fun r => r.res ≠ m.res) := hr
      exact hi.fresh r (List.mem_filter.mp hmem).1
    · show ((pre ++ post).map MmioReservation.res).Nodup
      rw [List.map_append]
      exact hids.2
    · intro a ha
      exact hi.own a (hsub a ha)

theorem EmudevInv.irqSet {before : List Region} {d : DeviceTables β} (hi : EmudevInv before d)
    {x : Answers} (hx : x.Orderly) (ioProxy : β) (irq op : BitVec 32) :
    EmudevInv before (emudevIrqSet d x ioProxy irq op).2 := by
  obtain ⟨hmmio, hres, hnext, -⟩ := emudevIrqSet_frame d hx ioProxy irq op
  refine ⟨?_, ?_, ?_, ?_, ?_⟩
  · rw [hres, hmmio]
    exact hi.reserved
  · rw [hres, hnext]
    exact hi.fresh
  · rw [hmmio]
    exact hi.ids
  · rw [hmmio]
    exact hi.own
  · rcases emudevIrqSet_cases d hx ioProxy irq op with ⟨-, hr⟩ | ⟨-, hr⟩
    · rw [hr]
      exact hi.lines
    · rw [hr, (emudevIrqOp_frame _ _ _ _).1]
      exact withLine_nodup hi.lines ioProxy irq

/-- **Step.** -/
theorem EmudevInv.step {before : List Region} {d : DeviceTables β} (hi : EmudevInv before d)
    {e : EmudevEvent β} (hx : e.x.Orderly) : EmudevInv before (e.run d).2 := by
  unfold EmudevEvent.run handleEmudev
  split
  · show EmudevInv before (emudevMmioConfig d e.x e.ioProxy _ _ _).2
    unfold emudevMmioConfig
    split
    · exact hi
    · split
      · exact hi.free hx _ _ _
      · exact hi.assign hx _ _ _
  · split
    · exact hi.irqSet hx _ _ _
    · exact hi

theorem emudevInv_reachable {before : List Region} {d : DeviceTables β}
    (h : (emudevLts before).Reachable d) : EmudevInv before d := by
  apply h.invariant (I := EmudevInv before)
  · intro d hd
    obtain ⟨d₀, x, hinit, hreserved, hfresh⟩ := hd
    have hempty : d.irqs = [] ∧ d.mmioReservations = [] := by
      unfold emudevInit at hinit
      by_cases hlist : x.irqListInit ≠ 0
      · rw [if_pos hlist] at hinit
        exact absurd (congrArg Prod.fst hinit) hlist
      · simp only [hlist, if_false, Prod.mk.injEq] at hinit
        rw [← hinit.2]
        exact ⟨rfl, rfl⟩
    obtain ⟨hirqs, hmmio⟩ := hempty
    refine ⟨?_, ?_, ?_, ?_, ?_⟩
    · rw [hreserved, hmmio, List.map_nil, List.append_nil]
    · rw [hreserved]
      exact hfresh
    · rw [hmmio]
      exact List.nodup_nil
    · intro m hm
      rw [hmmio] at hm
      cases hm
    · rw [hirqs]
      exact List.nodup_nil
  · intro d e d' _ hd hst
    obtain ⟨hx, hrun⟩ := hst
    rw [← hrun]
    exact hd.step hx

/-! ### Isolation -/

/-- What the other backends have is in place, and they find it. -/
structure KeepsOthers (ioProxy : β) (d d' : DeviceTables β) : Prop where
  mmio : ∀ m ∈ d.mmioReservations, m.ioProxy ≠ ioProxy →
    m ∈ d'.mmioReservations ∧ m.region ∈ d'.vm.reserved
  found : ∀ io, io ≠ ioProxy → ∀ addr size,
    d'.mmioReservations.find? (fun m => m.Is io addr size)
      = d.mmioReservations.find? (fun m => m.Is io addr size)

/-- A region of another backend is not the one that is looked for. -/
theorem not_is_of_ne {m : MmioReservation β} {io : β} {addr size : Word} (h : m.ioProxy ≠ io) :
    ¬ m.Is io addr size = true :=
  fun his => h (MmioReservation.is_iff.mp his).2.2

theorem KeepsOthers.of_same {ioProxy : β} {d d' : DeviceTables β} {before : List Region}
    (hi' : EmudevInv before d') (h : d'.mmioReservations = d.mmioReservations) :
    KeepsOthers ioProxy d d' where
  mmio := by
    intro m hm _
    rw [hi'.reserved, h]
    exact ⟨hm, List.mem_append_right _ (List.mem_map_of_mem hm)⟩
  found := by
    intro io _ addr size
    rw [h]

theorem KeepsOthers.assign {before : List Region} {d : DeviceTables β} (hi : EmudevInv before d)
    {x : Answers} (hx : x.Orderly) (ioProxy : β) (addr size : Word) :
    KeepsOthers ioProxy d (mmioResAssign d x ioProxy addr size).2 := by
  have hi' := hi.assign hx ioProxy addr size
  rcases mmioResAssign_cases d hx ioProxy addr size with ⟨-, hr⟩ | ⟨-, hr⟩
  · apply KeepsOthers.of_same hi'
    rw [hr]
  · have htable : (mmioResAssign d x ioProxy addr size).2.mmioReservations
        = d.mmioReservations ++ [⟨addr, size, d.vm.nextRes, ioProxy⟩] := by
      rw [hr]
    constructor
    · intro m hm _
      rw [hi'.reserved, htable]
      have hm' : m ∈ d.mmioReservations ++ [⟨addr, size, d.vm.nextRes, ioProxy⟩] :=
        List.mem_append_left _ hm
      exact ⟨hm', List.mem_append_right _ (List.mem_map_of_mem hm')⟩
    · intro io hio addr' size'
      have hno : ¬ (⟨addr, size, d.vm.nextRes, ioProxy⟩ : MmioReservation β).Is io addr' size'
          = true :=
        not_is_of_ne (Ne.symm hio)
      rw [htable, List.find?_append,
        List.find?_cons_of_neg (p := fun m : MmioReservation β => m.Is io addr' size') hno,
        List.find?_nil, Option.or_none]

theorem KeepsOthers.free {before : List Region} {d : DeviceTables β} (hi : EmudevInv before d)
    {x : Answers} (hx : x.Orderly) (ioProxy : β) (addr size : Word) :
    KeepsOthers ioProxy d (mmioResFree d x ioProxy addr size).2 := by
  have hi' := hi.free hx ioProxy addr size
  rcases mmioResFree_cases d x ioProxy addr size with ⟨-, hr⟩ | ⟨pre, m, post, hsplit, hm, hr⟩
  · apply KeepsOthers.of_same hi'
    rw [hr]
  · have htable : (mmioResFree d x ioProxy addr size).2.mmioReservations = pre ++ post := by
      rw [hr]
    have howner := (MmioReservation.is_iff.mp hm).2.2
    constructor
    · intro a ha hne
      rw [hi'.reserved, htable]
      rw [hsplit] at ha
      have ha' : a ∈ pre ++ post := by
        rcases List.mem_append.mp ha with h | h
        · exact List.mem_append_left _ h
        · rcases List.mem_cons.mp h with rfl | h
          · exact absurd howner hne
          · exact List.mem_append_right _ h
      exact ⟨ha', List.mem_append_right _ (List.mem_map_of_mem ha')⟩
    · intro io hio addr' size'
      have hno : ¬ m.Is io addr' size' = true :=
        not_is_of_ne (by rw [howner]; exact Ne.symm hio)
      rw [htable, hsplit, List.find?_append, List.find?_append]
      congr 1
      exact (List.find?_cons_of_neg (p := fun m : MmioReservation β => m.Is io addr' size')
        hno).symm

theorem KeepsOthers.step {before : List Region} {d : DeviceTables β} (hi : EmudevInv before d)
    {e : EmudevEvent β} (hx : e.x.Orderly) : KeepsOthers e.ioProxy d (e.run d).2 := by
  have hi' := hi.step hx
  unfold EmudevEvent.run handleEmudev at hi' ⊢
  split at hi'
  · rename_i hop
    rw [if_pos hop]
    show KeepsOthers e.ioProxy d (emudevMmioConfig d e.x e.ioProxy _ _ _).2
    unfold emudevMmioConfig
    split
    · exact KeepsOthers.of_same hi rfl
    · split
      · exact KeepsOthers.free hi hx _ _ _
      · exact KeepsOthers.assign hi hx _ _ _
  · rename_i hop
    rw [if_neg hop]
    split at hi'
    · rename_i hirq
      rw [if_pos hirq]
      apply KeepsOthers.of_same hi'
      exact (emudevIrqSet_frame d hx e.ioProxy _ _).1
    · rename_i hirq
      rw [if_neg hirq]
      exact KeepsOthers.of_same hi rfl

/-- A free succeeds exactly when the backend has a region of this address and size, and takes one
from the table and from the VM. -/
structure FreesOwn (before : List Region) (d : DeviceTables β) (ioProxy : β) (addr size : Word)
    (r : RpcmsgRc × DeviceTables β) : Prop where
  handled_iff : r.1 = .handled ↔
    ∃ m ∈ d.mmioReservations, m.addr = addr ∧ m.size = size ∧ m.ioProxy = ioProxy
  released : r.1 = .handled → ∃ pre m post, d.mmioReservations = pre ++ m :: post ∧
    m.addr = addr ∧ m.size = size ∧ m.ioProxy = ioProxy ∧
      r.2.mmioReservations = pre ++ post ∧
        r.2.vm.reserved = before ++ (pre ++ post).map MmioReservation.region
  kept : r.1 ≠ .handled → r.2 = d

omit [DecidableEq β] in
theorem handledUnless_eq_handled_iff {r : ℤ × DeviceTables β} :
    (handledUnless r).1 = .handled ↔ r.1 = 0 := by
  unfold handledUnless
  by_cases h : r.1 ≠ 0
  · simp [h]
  · simp only [ne_eq, not_not] at h
    simp [h]

theorem EmudevInv.freesOwn {before : List Region} {d : DeviceTables β} (hi : EmudevInv before d)
    {x : Answers} (hx : x.Orderly) (ioProxy : β) (addr size : Word) :
    FreesOwn before d ioProxy addr size (handledUnless (mmioResFree d x ioProxy addr size)) := by
  have hiff : (handledUnless (mmioResFree d x ioProxy addr size)).1 = .handled ↔
      ∃ m ∈ d.mmioReservations, m.addr = addr ∧ m.size = size ∧ m.ioProxy = ioProxy := by
    rw [handledUnless_eq_handled_iff, mmioResFree_eq_zero_iff]
    exact and_iff_right hx.vmReservationFree
  refine ⟨hiff, ?_, ?_⟩
  · intro hhandled
    rcases mmioResFree_cases d x ioProxy addr size with ⟨hnone, -⟩ | ⟨pre, m, post, hsplit, hm, hr⟩
    · obtain ⟨m, hm, hkey⟩ := hiff.mp hhandled
      exact absurd (MmioReservation.is_iff.mpr hkey) (hnone m hm)
    · obtain ⟨haddr, hsize, howner⟩ := MmioReservation.is_iff.mp hm
      refine ⟨pre, m, post, hsplit, haddr, hsize, howner, ?_, ?_⟩
      · show (mmioResFree d x ioProxy addr size).2.mmioReservations = _
        rw [hr]
      · show (mmioResFree d x ioProxy addr size).2.vm.reserved = _
        rw [hr, hx.vmReservationFree]
        exact hi.release hsplit
  · intro hno
    rcases mmioResFree_cases d x ioProxy addr size with ⟨-, hr⟩ | ⟨pre, m, post, hsplit, hm, -⟩
    · show (mmioResFree d x ioProxy addr size).2 = d
      rw [hr]
    · have hmem : m ∈ d.mmioReservations := by
        rw [hsplit]
        exact List.mem_append_right _ List.mem_cons_self
      exact absurd (hiff.mpr ⟨m, hmem, MmioReservation.is_iff.mp hm⟩) hno

/-- An assignment succeeds exactly when the VM can reserve the region, and then it is the
sender's. -/
structure AssignsOwn (d : DeviceTables β) (x : Answers) (ioProxy : β) (addr size : Word)
    (r : RpcmsgRc × DeviceTables β) : Prop where
  handled_iff : r.1 = .handled ↔ x.vmReserveMemoryAt = true
  reserved : r.1 = .handled → ∃ res,
    r.2.mmioReservations = d.mmioReservations ++ [⟨addr, size, res, ioProxy⟩] ∧
      r.2.vm.reserved = d.vm.reserved ++ [⟨res, addr, size⟩]
  kept : r.1 ≠ .handled → r.2 = d

omit [DecidableEq β] in
theorem assignsOwn (d : DeviceTables β) {x : Answers} (hx : x.Orderly) (ioProxy : β)
    (addr size : Word) :
    AssignsOwn d x ioProxy addr size (handledUnless (mmioResAssign d x ioProxy addr size)) := by
  have hfst := handledUnless_eq_handled_iff (r := mmioResAssign d x ioProxy addr size)
  rcases mmioResAssign_cases d hx ioProxy addr size with ⟨hno, hr⟩ | ⟨hyes, hr⟩
  · have hkept : (handledUnless (mmioResAssign d x ioProxy addr size)).2 = d := by
      show (mmioResAssign d x ioProxy addr size).2 = d
      rw [hr]
    have hfailed : ¬ (handledUnless (mmioResAssign d x ioProxy addr size)).1 = .handled := by
      rw [hfst, hr]
      show ¬ (-1 : ℤ) = 0
      decide
    refine ⟨?_, fun h => absurd h hfailed, fun _ => hkept⟩
    rw [hno]
    exact ⟨fun h => absurd h hfailed, fun h => absurd h Bool.false_ne_true⟩
  · have hdone : (handledUnless (mmioResAssign d x ioProxy addr size)).1 = .handled := by
      rw [hfst, hr]
    refine ⟨⟨fun _ => hyes, fun _ => hdone⟩, ?_, fun h => absurd hdone h⟩
    intro _
    refine ⟨d.vm.nextRes, ?_, ?_⟩
    · show (mmioResAssign d x ioProxy addr size).2.mmioReservations = _
      rw [hr]
    · show (mmioResAssign d x ioProxy addr size).2.vm.reserved = _
      rw [hr]

/-- An interrupt event works on the line of its backend and interrupt, and on the level of no other
interrupt; any other event works on no line. -/
structure DrivesNamed (d : DeviceTables β) (e : EmudevEvent β) : Prop where
  line : e.op = qemuOpSetIrq → irqIsEmulatedDevice ((e.msg mr1).setWidth 32) = true →
    ⟨(e.msg mr1).setWidth 32, e.ioProxy⟩ ∈ (e.run d).2.irqs ∧
      e.run d = handledUnless (emudevIrqOp (withLine d e.ioProxy ((e.msg mr1).setWidth 32)) e.x
        ⟨(e.msg mr1).setWidth 32, e.ioProxy⟩ ((e.msg mr2).setWidth 32))
  others : ∀ irq, e.op = qemuOpSetIrq → irq ≠ (e.msg mr1).setWidth 32 →
    (e.run d).2.vm.level irq = d.vm.level irq
  none : e.op ≠ qemuOpSetIrq → (e.run d).2.vm.level = d.vm.level ∧ (e.run d).2.irqs = d.irqs
  regions : e.op ≠ qemuOpMmioRegionConfig →
    (e.run d).2.mmioReservations = d.mmioReservations ∧ (e.run d).2.vm.reserved = d.vm.reserved

theorem drivesNamed (d : DeviceTables β) {e : EmudevEvent β} (hx : e.x.Orderly) :
    DrivesNamed d e := by
  have hset : e.op = qemuOpSetIrq → e.run d = handledUnless
      (emudevIrqSet d e.x e.ioProxy ((e.msg mr1).setWidth 32) ((e.msg mr2).setWidth 32)) := by
    intro hop
    have hne : ¬ e.op = qemuOpMmioRegionConfig := by
      rw [hop]
      decide
    unfold EmudevEvent.run handleEmudev
    rw [if_neg hne, if_pos hop]
  constructor
  · intro hop hemu
    rcases emudevIrqSet_cases d hx e.ioProxy ((e.msg mr1).setWidth 32) ((e.msg mr2).setWidth 32)
      with ⟨hno, -⟩ | ⟨hmem, hr⟩
    · rw [hemu] at hno
      cases hno
    · rw [hset hop, hr]
      refine ⟨?_, rfl⟩
      show _ ∈ (emudevIrqOp _ _ _ _).2.irqs
      rw [(emudevIrqOp_frame _ _ _ _).1]
      exact hmem
  · intro irq hop hirq
    rw [hset hop]
    exact (emudevIrqSet_frame d hx e.ioProxy _ _).2.2.2 irq hirq
  · intro hop
    unfold EmudevEvent.run handleEmudev
    rw [if_neg hop]
    split
    · have hframe := emudevMmioConfig_frame d hx e.ioProxy (e.msg mr1) (e.msg mr2) (e.msg mr3)
      exact ⟨hframe.2, hframe.1⟩
    · exact ⟨rfl, rfl⟩
  · intro hop
    by_cases hirq : e.op = qemuOpSetIrq
    · rw [hset hirq]
      obtain ⟨hmmio, hres, -, -⟩ := emudevIrqSet_frame d hx e.ioProxy ((e.msg mr1).setWidth 32)
        ((e.msg mr2).setWidth 32)
      exact ⟨hmmio, hres⟩
    · unfold EmudevEvent.run handleEmudev
      rw [if_neg hop, if_neg hirq]
      exact ⟨rfl, rfl⟩

/-- **Isolation.**  After any run of events the MMIO table lists the VM's reservations that
`mmio_res_assign` made; a backend frees exactly its own regions; an event leaves what the other
backends have; and the IRQ table has one line for a backend's interrupt, the one its events
drive. -/
theorem emudev_isolation {before : List Region} {d : DeviceTables β}
    (h : (emudevLts before).Reachable d) :
    (d.vm.reserved = before ++ d.mmioReservations.map MmioReservation.region ∧
        (d.mmioReservations.map MmioReservation.res).Nodup) ∧
      (d.irqs.map IrqLine.key).Nodup ∧
      ∀ e : EmudevEvent β, e.x.Orderly →
        (e.op = qemuOpMmioRegionConfig → e.msg mr3 = sel4MmioRegionFree.setWidth 64 →
            FreesOwn before d e.ioProxy (e.msg mr1) (e.msg mr2) (e.run d)) ∧
          (e.op = qemuOpMmioRegionConfig → e.msg mr3 = 0#64 →
            AssignsOwn d e.x e.ioProxy (e.msg mr1) (e.msg mr2) (e.run d)) ∧
          KeepsOthers e.ioProxy d (e.run d).2 ∧ DrivesNamed d e := by
  have hi := emudevInv_reachable h
  refine ⟨⟨hi.reserved, hi.ids⟩, hi.lines, ?_⟩
  intro e hx
  refine ⟨?_, ?_, KeepsOthers.step hi hx, drivesNamed d hx⟩
  · intro hop hflags
    have hrun : e.run d
        = handledUnless (mmioResFree d e.x e.ioProxy (e.msg mr1) (e.msg mr2)) := by
      unfold EmudevEvent.run handleEmudev emudevMmioConfig
      rw [if_pos hop, hflags]
      rfl
    rw [hrun]
    exact hi.freesOwn hx e.ioProxy (e.msg mr1) (e.msg mr2)
  · intro hop hflags
    have hrun : e.run d
        = handledUnless (mmioResAssign d e.x e.ioProxy (e.msg mr1) (e.msg mr2)) := by
      unfold EmudevEvent.run handleEmudev emudevMmioConfig
      rw [if_pos hop, hflags]
      rfl
    rw [hrun]
    exact assignsOwn d hx e.ioProxy (e.msg mr1) (e.msg mr2)

end Emudev

theorem callsSucceed_orderly : callsSucceed.Orderly := ⟨rfl, rfl, rfl, rfl⟩

/-- A VM without reservations after `emudev_init`. -/
def noReservation : DeviceTables Bool where
  vm := ⟨[], 0, [], fun _ => false⟩
  pciIntx := fun _ => ⟨0#32, 0#64⟩
  pciDevs := []
  irqs := []
  mmioReservations := []
  okToRun := fun _ => true

/-- Two backends reserve regions, and the first frees its own. -/
theorem emudev_isolation_free :
    ∃ d : DeviceTables Bool,
      d.mmioReservations = [⟨0x1000#64, 0x100#64, 0, false⟩, ⟨0x2000#64, 0x100#64, 1, true⟩] ∧
        FreesOwn [] d false 0x1000#64 0x100#64 (handleEmudev callsSucceed false
          qemuOpMmioRegionConfig (eventMsg qemuOpMmioRegionConfig 0x1000#64 0x100#64 1#64) d) := by
  let assign (io : Bool) (addr : Word) : EmudevEvent Bool :=
    ⟨callsSucceed, io, qemuOpMmioRegionConfig, eventMsg qemuOpMmioRegionConfig addr 0x100#64 0#64⟩
  let free : EmudevEvent Bool := ⟨callsSucceed, false, qemuOpMmioRegionConfig,
    eventMsg qemuOpMmioRegionConfig 0x1000#64 0x100#64 1#64⟩
  let d₁ := ((assign false 0x1000#64).run noReservation).2
  let d₂ := ((assign true 0x2000#64).run d₁).2
  have hinit : (emudevLts []).init noReservation := by
    refine ⟨noReservation, initSucceeds, rfl, rfl, ?_⟩
    intro r hr
    cases hr
  have hfirst : (emudevLts []).step noReservation (assign false 0x1000#64) d₁ :=
    ⟨callsSucceed_orderly, rfl⟩
  have hsecond : (emudevLts []).step d₁ (assign true 0x2000#64) d₂ := ⟨callsSucceed_orderly, rfl⟩
  have hreach : (emudevLts []).Reachable d₂ :=
    ((Lts.Reachable.init hinit).step hfirst).step hsecond
  obtain ⟨-, -, hevents⟩ := emudev_isolation hreach
  exact ⟨d₂, by decide +kernel, (hevents free callsSucceed_orderly).1 rfl rfl⟩

end TiiSel4Vm.Devices
