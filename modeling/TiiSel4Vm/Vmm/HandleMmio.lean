import TiiSel4Vm.Vmm.IoreqStart
import TiiSel4Vm.Vmm.RpcRun

/-!
# The slot of a message from the device

`handle_mmio` takes the slot from six bits of a word that the peer VM can write, and `ioreq_finish`
asserts that it is at most the size of `ioacks`.  The table is here the start of a memory that goes
on behind it.

* `mmio_in_table_iff` — the messages on which only entries of the table are touched;
* `not_namesPastLast_words` — the VMM sends none of the others;
* `slot_past_table` — a message that makes the VMM call through the memory behind the table.
-/

namespace TiiSel4Vm.Ioreq

open TiiSel4Vm.RpcQueue TiiSel4Vm.IoProxy TiiSel4Vm.Devices TiiSel4Vm.RpcRun

variable {F C : Type}

/-! ### The code -/

/-- A call through the pointer of an entry. -/
structure IoackCall (F C : Type) where
  entry : ℕ
  callback : F
  cookie : Option C
  data : Word

/-- The memory from `ioacks` on as entries, the entries dereferenced so far and the calls made. -/
structure IoackMemory (F C : Type) where
  ioack : ℕ → Ioack F C
  touched : List ℕ
  calls : List (IoackCall F C)

/-- `ioreq_finish`; `none` for a failed assertion.  `ret` is what the callbacks return. -/
def ioreqFinish (ret : F → Option C → Word → ℤ) (m : IoackMemory F C) (slot : BitVec 32)
    (data : Word) : Option ℤ × IoackMemory F C :=
  if ¬ slot.toNat ≤ ioacksSize then (none, m)
  else
    let ioack := m.ioack slot.toNat
    let m := { m with touched := m.touched ++ [slot.toNat] }
    match ioack.callback with
    | none => (none, m)
    | some fn =>
        (some (ret fn ioack.cookie data),
          { m with
            calls := m.calls ++ [⟨slot.toNat, fn, ioack.cookie, data⟩]
            ioack := Function.update m.ioack slot.toNat { ioack with callback := none } })

/-- The slot of a message. -/
def mmioSlot (msg : RpcMsg) : BitVec 32 := (bitFieldGet (msg mr0) rpcMr0MmioSlot).setWidth 32

/-- `handle_mmio`. -/
def handleMmio (ret : F → Option C → Word → ℤ) : RpcCallback (IoackMemory F C) := fun op msg w =>
  if op ≠ qemuOpMmio then (some .none, w)
  else
    let r := ioreqFinish ret w.rest (mmioSlot msg) (msg mr2)
    (r.1.map fun err => if err ≠ 0 then .error else .handled, { w with rest := r.2 })

/-! ### Slots of messages -/

/-- `handle_mmio` gets past the range assertion. -/
def PastAssertion (op : Word) (msg : RpcMsg) : Prop :=
  op = qemuOpMmio ∧ (mmioSlot msg).toNat ≤ ioacksSize

/-- The message names the slot behind the last one. -/
def NamesPastLast (op : Word) (msg : RpcMsg) : Prop :=
  op = qemuOpMmio ∧ (mmioSlot msg).toNat = ioacksSize

/-- Only entries of the table were dereferenced. -/
def InTable (m : IoackMemory F C) : Prop := ∀ k ∈ m.touched, k < ioacksSize

/-- The range assertion keeps the slot in the table, but for the slot behind the last one. -/
theorem lt_of_pastAssertion_iff (op : Word) (msg : RpcMsg) :
    (PastAssertion op msg → (mmioSlot msg).toNat < ioacksSize) ↔ ¬ NamesPastLast op msg := by
  constructor
  · rintro hlt ⟨hop, heq⟩
    exact absurd (hlt ⟨hop, le_of_eq heq⟩) (heq ▸ lt_irrefl _)
  · rintro hnot ⟨hop, hle⟩
    exact lt_of_le_of_ne hle fun heq => hnot ⟨hop, heq⟩

/-- What `ioreq_finish` dereferences. -/
theorem ioreqFinish_touched (ret : F → Option C → Word → ℤ) (m : IoackMemory F C)
    (slot : BitVec 32) (data : Word) :
    (ioreqFinish ret m slot data).2.touched
      = m.touched ++ if slot.toNat ≤ ioacksSize then [slot.toNat] else [] := by
  unfold ioreqFinish
  by_cases hle : slot.toNat ≤ ioacksSize
  · rw [if_neg (not_not.mpr hle), if_pos hle]
    dsimp only
    cases (m.ioack slot.toNat).callback with
    | none => rfl
    | some fn => rfl
  · rw [if_pos hle, if_neg hle, List.append_nil]

/-- What `handle_mmio` dereferences. -/
theorem mem_touched_handleMmio (ret : F → Option C → Word → ℤ) (op : Word) (msg : RpcMsg)
    (w : RunState (IoackMemory F C)) (k : ℕ) :
    k ∈ (handleMmio ret op msg w).2.rest.touched ↔
      k ∈ w.rest.touched ∨ (PastAssertion op msg ∧ k = (mmioSlot msg).toNat) := by
  unfold handleMmio PastAssertion
  by_cases hop : op = qemuOpMmio
  · rw [if_neg (not_not.mpr hop)]
    show k ∈ (ioreqFinish ret w.rest (mmioSlot msg) (msg mr2)).2.touched ↔ _
    rw [ioreqFinish_touched, List.mem_append]
    by_cases hle : (mmioSlot msg).toNat ≤ ioacksSize
    · simp [hop, hle]
    · simp [hle]
  · rw [if_pos hop]
    simp [hop]

/-- **Slots.**  Of every message and every state: the slot is in the table once `handle_mmio` is
past its assertion, and no entry outside is dereferenced, exactly when the message does not name the
slot behind the last one. -/
theorem mmio_in_table_iff (ret : F → Option C → Word → ℤ) (op : Word) (msg : RpcMsg)
    (w : RunState (IoackMemory F C)) (h : InTable w.rest) :
    ((PastAssertion op msg → (mmioSlot msg).toNat < ioacksSize) ↔ ¬ NamesPastLast op msg) ∧
      (InTable (handleMmio ret op msg w).2.rest ↔ ¬ NamesPastLast op msg) := by
  refine ⟨lt_of_pastAssertion_iff op msg, ?_⟩
  rw [← lt_of_pastAssertion_iff op msg]
  constructor
  · intro hin hpast
    exact hin _ ((mem_touched_handleMmio ret op msg w _).mpr (.inr ⟨hpast, rfl⟩))
  · intro hlt k hk
    rcases (mem_touched_handleMmio ret op msg w k).mp hk with hold | ⟨hpast, rfl⟩
    · exact h k hold
    · exact hlt hpast

/-- A mask of six bits. -/
theorem toNat_mmioSlot (msg : RpcMsg) :
    (mmioSlot msg).toNat = (bitFieldGet (msg mr0) rpcMr0MmioSlot).toNat := by
  have hmask : (mask rpcMr0MmioSlot.width).toNat = 63 := by decide
  have hle : (bitFieldGet (msg mr0) rpcMr0MmioSlot).toNat ≤ 63 := by
    rw [bitFieldGet, BitVec.toNat_and, hmask]
    exact Nat.and_le_right
  rw [mmioSlot, BitVec.toNat_setWidth]
  omega

/-- The words the VMM itself sends name slots of the table. -/
theorem not_namesPastLast_words (r : IoReq) (slot : Slot) (op : Word) :
    ¬ NamesPastLast op (r.words slot) := by
  rintro ⟨-, heq⟩
  have hlt : (slot : ℕ) < 32 := slot.isLt
  have hval : (BitVec.ofNat 64 (slot : ℕ)).toNat = slot := by
    rw [BitVec.toNat_ofNat]
    omega
  have hslot : bitFieldGet (r.words slot mr0) rpcMr0MmioSlot = BitVec.ofNat 64 slot :=
    slot_mmioMr0 (by rw [hval]; omega)
  rw [toNat_mmioSlot, hslot, hval] at heq
  exact absurd heq (Nat.ne_of_lt hlt)

/-- Where the parties' model of `handle_mmio` goes astray: on another operation, which it has no
callback for, and on the slot behind the last one. -/
theorem handleMmio_astray_iff (w : Proxy) (msg : Fin rpcmsgBufferSize) :
    IoProxy.handleMmio w msg = .astray ↔
      qemuOp (w.buffer msg mr0) ≠ qemuOpMmio ∨
        NamesPastLast (qemuOp (w.buffer msg mr0)) (w.buffer msg) := by
  unfold IoProxy.handleMmio NamesPastLast
  rw [toNat_mmioSlot]
  by_cases hop : qemuOp (w.buffer msg mr0) = qemuOpMmio
  · rw [if_neg (not_not.mpr hop)]
    by_cases hle : (bitFieldGet (w.buffer msg mr0) rpcMr0MmioSlot).toNat ≤ ioacksSize
    · rw [if_neg (not_not.mpr hle)]
      by_cases hlt : (bitFieldGet (w.buffer msg mr0) rpcMr0MmioSlot).toNat < ioacksSize
      · rw [dif_pos hlt]
        refine iff_of_false ?_ ?_
        · split <;> exact NotifierPc.noConfusion
        · rintro (hne | ⟨-, heq⟩)
          · exact hne hop
          · exact absurd heq (Nat.ne_of_lt hlt)
      · rw [dif_neg hlt]
        exact iff_of_true rfl (.inr ⟨hop, le_antisymm hle (Nat.le_of_not_lt hlt)⟩)
    · rw [if_pos hle]
      refine iff_of_false NotifierPc.noConfusion ?_
      rintro (hne | ⟨-, heq⟩)
      · exact hne hop
      · exact hle (le_of_eq heq)
  · rw [if_pos hop]
    exact iff_of_true rfl (.inl hop)

/-- Among the callbacks on the device tables it is the one with this result. -/
theorem handleMmioEvent_eq {β : Type} {ret : F → Option C → Word → ℤ} {op : Word} {msg : RpcMsg}
    {w : RunState (IoackMemory F C)} {rc : RpcmsgRc} (h : (handleMmio ret op msg w).1 = some rc)
    (d : DeviceTables β) : handleMmioEvent rc op d = (rc, d) := by
  unfold handleMmio at h
  unfold handleMmioEvent
  by_cases hop : op = qemuOpMmio
  · rw [if_neg (not_not.mpr hop)]
  · rw [if_pos hop] at h
    cases h
    rw [if_pos hop]

/-- A read answered for slot `slot`. -/
def mmioAnswer (slot : Word) : RpcMsg := eventMsg (slot <<< 6) 0#64 0x2a#64 0#64

/-- A table with no callback filed, and a function pointer in the memory behind it. -/
def pointerBehind : RunState (IoackMemory Unit Unit) where
  response := rpcmsgQueueInit
  deviceEvent := rpcmsgQueueInit
  buffer := rpcmsgBufferInit
  eventBuffer := rpcmsgBufferInit
  bufferState := rpcmsgBufferStateInit
  rest := ⟨fun k => if k < ioacksSize then ⟨none, none⟩ else ⟨some (), some ()⟩, [], []⟩

/-- A message for slot 5. -/
theorem mmio_in_table_iff_five :
    InTable (handleMmio (fun _ _ _ => 0) qemuOpMmio (mmioAnswer 5#64) pointerBehind).2.rest := by
  have hin : InTable pointerBehind.rest := by
    intro k hk
    cases hk
  have hnot : ¬ NamesPastLast qemuOpMmio (mmioAnswer 5#64) := by
    rintro ⟨-, heq⟩
    revert heq
    decide
  exact (mmio_in_table_iff (fun _ _ _ => 0) qemuOpMmio (mmioAnswer 5#64) pointerBehind
    hin).2.mpr hnot

/-- A message for slot 32 passes the range assertion, and the VMM calls what the memory behind the
table holds. -/
theorem slot_past_table :
    PastAssertion qemuOpMmio (mmioAnswer 32#64) ∧
      ¬ (mmioSlot (mmioAnswer 32#64)).toNat < ioacksSize ∧
      (handleMmio (fun _ _ _ => 0) qemuOpMmio (mmioAnswer 32#64) pointerBehind).2.rest.calls.map
        IoackCall.entry = [32] := by
  refine ⟨⟨rfl, ?_⟩, ?_, ?_⟩
  · decide
  · decide
  · decide +kernel

end TiiSel4Vm.Ioreq
