import TiiSel4Vm.Queue.Machine

/-!
# The fields of a message's first word

`rpc.h` packs operation, slot, direction, address space and length into `mr0`.  A field is a width
and a shift; the macros are one definition each.

* `bitFieldGet_set` — reading a field back gives the value modulo `2 ^ width`;
* `bitFieldGet_set_of_disjoint` — writing a field leaves a disjoint one;
* `slot_mmioMr0`, `op_mmioMr0` — what the receiver of an MMIO request or response decodes.
-/

namespace TiiSel4Vm.RpcQueue

/-! ### The macros -/

/-- A field: `_name ## _WIDTH` and `_name ## _SHIFT`. -/
structure BitField where
  width : ℕ
  shift : ℕ

/-- `MASK`. -/
def mask (n : ℕ) : Word := (1#64 <<< n) - 1#64

/-- `BIT_FIELD_MASK`. -/
def bitFieldMask (f : BitField) : Word := mask f.width <<< f.shift

/-- `BIT_FIELD_CLR_ALL`. -/
def bitFieldClrAll (v : Word) (f : BitField) : Word := v &&& ~~~(bitFieldMask f)

/-- `BIT_FIELD_GET`. -/
def bitFieldGet (v : Word) (f : BitField) : Word := (v >>> f.shift) &&& mask f.width

/-- `BIT_FIELD_SET`. -/
def bitFieldSet (v : Word) (f : BitField) (n : Word) : Word :=
  bitFieldClrAll v f ||| ((n <<< f.shift) &&& bitFieldMask f)

/-- `RPC_MR0_OP`. -/
def rpcMr0Op : BitField := ⟨6, 0⟩

/-- `RPC_MR0_MMIO_SLOT`. -/
def rpcMr0MmioSlot : BitField := ⟨6, 6⟩

/-- `RPC_MR0_MMIO_DIRECTION`. -/
def rpcMr0MmioDirection : BitField := ⟨1, 12⟩

/-- `RPC_MR0_MMIO_ADDR_SPACE`. -/
def rpcMr0MmioAddrSpace : BitField := ⟨8, 13⟩

/-- `RPC_MR0_MMIO_LENGTH`. -/
def rpcMr0MmioLength : BitField := ⟨4, 21⟩

/-- `QEMU_OP_MMIO`. -/
def qemuOpMmio : Word := 0#64

/-- `QEMU_OP`. -/
def qemuOp (mr0 : Word) : Word := bitFieldGet mr0 rpcMr0Op

/-! ### Reading and writing fields -/

theorem getLsbD_mask {n i : ℕ} (hn : n < 64) : (mask n).getLsbD i = decide (i < n) := by
  have hpow : 2 ^ n < 2 ^ 64 := Nat.pow_lt_pow_right (by omega) hn
  have hone : 1 ≤ 2 ^ n := Nat.one_le_two_pow
  have hval : (mask n).toNat = 2 ^ n - 1 := by
    have hshift : (1#64 <<< n).toNat = 2 ^ n := by
      have hbit : (1#64).toNat = 1 := rfl
      rw [BitVec.toNat_shiftLeft, Nat.shiftLeft_eq, hbit, Nat.one_mul, Nat.mod_eq_of_lt hpow]
    rw [mask, BitVec.toNat_sub_of_le (by rw [BitVec.le_def, hshift]; exact hone), hshift]
    rfl
  rw [BitVec.getLsbD, hval, Nat.testBit_two_pow_sub_one]

/-- A bit of a field that was read. -/
theorem getLsbD_bitFieldGet {v : Word} {f : BitField} (hf : f.width < 64) (i : ℕ) :
    (bitFieldGet v f).getLsbD i = (v.getLsbD (f.shift + i) && decide (i < f.width)) := by
  rw [bitFieldGet, BitVec.getLsbD_and, BitVec.getLsbD_ushiftRight, getLsbD_mask hf]

/-- A bit of a word in which a field was written. -/
theorem getLsbD_bitFieldSet {v n : Word} {f : BitField} (hf : f.width < 64) {i : ℕ} (hi : i < 64) :
    (bitFieldSet v f n).getLsbD i
      = if f.shift ≤ i ∧ i < f.shift + f.width then n.getLsbD (i - f.shift) else v.getLsbD i := by
  simp only [bitFieldSet, bitFieldClrAll, bitFieldMask, BitVec.getLsbD_or, BitVec.getLsbD_and,
    BitVec.getLsbD_not, BitVec.getLsbD_shiftLeft, getLsbD_mask hf, hi, decide_true, Bool.true_and]
  by_cases hlo : f.shift ≤ i
  · by_cases hhi : i < f.shift + f.width
    · have hin : i - f.shift < f.width := by omega
      simp [hlo, hhi, hin, Nat.not_lt.mpr hlo]
    · have hout : ¬ i - f.shift < f.width := by omega
      simp [hlo, hhi, hout]
  · have hlt : i < f.shift := Nat.lt_of_not_le hlo
    simp [hlo, hlt]

/-- **Reading back.** -/
theorem bitFieldGet_set {v n : Word} {f : BitField} (hf : f.width < 64)
    (hfit : f.shift + f.width ≤ 64) :
    bitFieldGet (bitFieldSet v f n) f = n &&& mask f.width := by
  apply BitVec.eq_of_getLsbD_eq
  intro i _
  rw [getLsbD_bitFieldGet hf, BitVec.getLsbD_and, getLsbD_mask hf]
  by_cases hi : i < f.width
  · rw [getLsbD_bitFieldSet hf (by omega), if_pos (by omega), Nat.add_sub_cancel_left]
  · simp [hi]

/-- **Disjoint fields.** -/
theorem bitFieldGet_set_of_disjoint {v n : Word} {f g : BitField} (hf : f.width < 64)
    (hg : g.width < 64) (hfit : g.shift + g.width ≤ 64)
    (h : f.shift + f.width ≤ g.shift ∨ g.shift + g.width ≤ f.shift) :
    bitFieldGet (bitFieldSet v f n) g = bitFieldGet v g := by
  apply BitVec.eq_of_getLsbD_eq
  intro i _
  rw [getLsbD_bitFieldGet hg, getLsbD_bitFieldGet hg]
  by_cases hi : i < g.width
  · rw [getLsbD_bitFieldSet hf (by omega), if_neg (by omega)]
  · simp [hi]

/-- A value that fits its mask is its own residue. -/
theorem and_mask_of_lt {n : Word} {w : ℕ} (hw : w < 64) (h : n.toNat < 2 ^ w) :
    n &&& mask w = n := by
  apply BitVec.eq_of_getLsbD_eq
  intro i _
  rw [BitVec.getLsbD_and, getLsbD_mask hw]
  by_cases hi : i < w
  · simp [hi]
  · have hzero : n.getLsbD i = false := by
      rw [BitVec.getLsbD]
      exact Nat.testBit_lt_two_pow (lt_of_lt_of_le h (Nat.pow_le_pow_right (by omega) (by omega)))
    simp [hi, hzero]

/-! ### MMIO requests -/

/-- The first word that `driver_rpc_req_mmio_start` and `driver_rpc_request` put together. -/
def mmioMr0 (direction addrSpace slot len : Word) : Word :=
  bitFieldSet
    (bitFieldSet
      (bitFieldSet
        (bitFieldSet (bitFieldSet 0#64 rpcMr0MmioDirection direction) rpcMr0MmioAddrSpace addrSpace)
        rpcMr0MmioLength len)
      rpcMr0MmioSlot slot)
    rpcMr0Op qemuOpMmio

theorem op_mmioMr0 (direction addrSpace slot len : Word) :
    qemuOp (mmioMr0 direction addrSpace slot len) = qemuOpMmio := by
  rw [qemuOp, mmioMr0, bitFieldGet_set (by decide) (by decide)]
  decide

theorem slot_mmioMr0 {direction addrSpace slot len : Word} (h : slot.toNat < 64) :
    bitFieldGet (mmioMr0 direction addrSpace slot len) rpcMr0MmioSlot = slot := by
  rw [mmioMr0, bitFieldGet_set_of_disjoint (by decide) (by decide) (by decide) (by decide),
    bitFieldGet_set (by decide) (by decide)]
  exact and_mask_of_lt (by decide) h

end TiiSel4Vm.RpcQueue
