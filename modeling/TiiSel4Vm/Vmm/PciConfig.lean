import Mathlib.Data.Nat.Digits.Lemmas
import TiiSel4Vm.Vmm.PciIntx

/-!
# PCI configuration space

A guest reads the configuration space of a device by one, two or four bytes.  The interrupt line and
pin are the VMM's and the other bytes are the backend's.

* `littleEndian` — the value of bytes, lowest first;
* `pciCfgStart`, `pciCfgRead16`, `pciCfgRead32` — the accessors, next to `pciCfgRead8`;
* `pciCfgRead_bytes_iff` — when a wide read is made of what the byte reads return.
-/

namespace TiiSel4Vm.Devices

open TiiSel4Vm.RpcQueue

/-! ### Bytes -/

/-- The value of bytes, lowest first. -/
def littleEndian (bytes : List (BitVec 8)) : ℕ := Nat.ofDigits 256 (bytes.map BitVec.toNat)

theorem byte_digits (bytes : List (BitVec 8)) : ∀ digit ∈ bytes.map BitVec.toNat, digit < 256 := by
  intro digit hdigit
  obtain ⟨byte, -, rfl⟩ := List.mem_map.mp hdigit
  exact byte.isLt

theorem littleEndian_inj {bytes bytes' : List (BitVec 8)} (hlen : bytes.length = bytes'.length) :
    littleEndian bytes = littleEndian bytes' ↔ bytes = bytes' := by
  have hinj : Function.Injective (List.map (@BitVec.toNat 8)) :=
    List.map_injective_iff.mpr fun _ _ => BitVec.eq_of_toNat_eq
  have hmaps : (bytes.map BitVec.toNat).length = (bytes'.map BitVec.toNat).length := by
    rw [List.length_map, List.length_map, hlen]
  constructor
  · intro h
    apply hinj
    exact Nat.ofDigits_inj_of_len_eq (by decide) hmaps (byte_digits bytes) (byte_digits bytes') h
  · intro h
    rw [h]

theorem littleEndian_lt (bytes : List (BitVec 8)) : littleEndian bytes < 256 ^ bytes.length := by
  have h := Nat.ofDigits_lt_base_pow_length (by decide : 1 < 256) (byte_digits bytes)
  rwa [List.length_map] at h

/-! ### Accessors -/

section Config

variable {β : Type}

/-- `AS_PCIDEV`. -/
def asPcidev (pcidev : BitVec 32) : BitVec 32 := pcidev

/-- `SEL4_IO_DIR_READ`. -/
def sel4IoDirRead : BitVec 32 := 0#32

/-- `ioreq_native`: the backend, the address space, the direction, the address, the size and the
value; `none` is an error, and the result is the value it leaves. -/
abbrev IoreqNative (β : Type) := β → BitVec 32 → BitVec 32 → Word → ℕ → Word → Option Word

/-- `pci_cfg_start`. -/
def pciCfgStart (native : IoreqNative β) (pcidev : Pcidev β) (dir : BitVec 32) (offset : Word)
    (size : ℕ) (value : Word) : Word :=
  match native pcidev.ioProxy (asPcidev (pciSlot pcidev.backendDevfn)) dir offset size value with
  | none => 0#64
  | some value => value

/-- `pci_cfg_read`. -/
def pciCfgRead (native : IoreqNative β) (pcidev : Pcidev β) (offset : BitVec 32) (size : ℕ) :
    Word :=
  pciCfgStart native pcidev sel4IoDirRead (offset.setWidth 64) size 0#64

/-- `pci_cfg_read16`. -/
def pciCfgRead16 (native : IoreqNative β) (pcidev : Pcidev β) (offset : BitVec 32) : BitVec 16 :=
  (pciCfgRead native pcidev offset 2).setWidth 16

/-- `pci_cfg_read32`. -/
def pciCfgRead32 (native : IoreqNative β) (pcidev : Pcidev β) (offset : BitVec 32) : BitVec 32 :=
  (pciCfgRead native pcidev offset 4).setWidth 32

/-- The bytes of an access, as `read` returns them one by one. -/
def bytesAt (read : BitVec 32 → BitVec 8) (offset : BitVec 32) (width : ℕ) : List (BitVec 8) :=
  (List.range width).map fun i => read (offset + BitVec.ofNat 32 i)

/-- A byte that the VMM emulates. -/
def emulatedByte (base : BitVec 32) (pcidev : Pcidev β) (offset : BitVec 32) : Option (BitVec 8) :=
  if offset = pciInterruptLine then
    some ((base + BitVec.ofNat 32 (pciMapIrq pcidev)).setWidth 8)
  else if offset = pciInterruptPin then some (BitVec.ofNat 8 (pciMapIrq pcidev + 1))
  else none

/-- A read of the backend. -/
def backendRead (native : IoreqNative β) (pcidev : Pcidev β) (offset : BitVec 32) (size : ℕ) :
    Option Word :=
  native pcidev.ioProxy (asPcidev (pciSlot pcidev.backendDevfn)) sel4IoDirRead (offset.setWidth 64)
    size 0#64

/-- A byte of the backend. -/
def backendByte (native : IoreqNative β) (pcidev : Pcidev β) (offset : BitVec 32) : BitVec 8 :=
  (pciCfgRead native pcidev offset 1).setWidth 8

/-- The reads of the backend succeed, and one of two or four bytes is made of its byte reads.  That
they are a function of the address and the size says that they are stable. -/
structure ByteConsistent (native : IoreqNative β) (pcidev : Pcidev β) : Prop where
  succeeds : ∀ offset size, (backendRead native pcidev offset size).isSome
  wide : ∀ offset width, width = 2 ∨ width = 4 → offset.toNat + width ≤ 2 ^ 32 →
    ∀ value ∈ backendRead native pcidev offset width,
      value.toNat % 256 ^ width = littleEndian (bytesAt (backendByte native pcidev) offset width)

theorem pciCfgRead8_eq (base : BitVec 32) (native : IoreqNative β) (pcidev : Pcidev β)
    (offset : BitVec 32) :
    pciCfgRead8 base (pciCfgRead native) pcidev offset
      = (emulatedByte base pcidev offset).getD (backendByte native pcidev offset) := by
  unfold pciCfgRead8 emulatedByte backendByte
  split
  · rfl
  · split
    · rfl
    · rfl

/-- The backend's byte is the emulated one, where there is one. -/
def AgreesAt (base : BitVec 32) (native : IoreqNative β) (pcidev : Pcidev β)
    (offset : BitVec 32) : Prop :=
  ∀ byte ∈ emulatedByte base pcidev offset, backendByte native pcidev offset = byte

theorem agreesAt_iff {base : BitVec 32} {native : IoreqNative β} {pcidev : Pcidev β}
    {offset : BitVec 32} :
    AgreesAt base native pcidev offset ↔
      backendByte native pcidev offset = pciCfgRead8 base (pciCfgRead native) pcidev offset := by
  rw [pciCfgRead8_eq, AgreesAt]
  cases emulatedByte base pcidev offset with
  | none => simp
  | some byte => simp

/-- The bytes of the backend against those that the guest reads. -/
theorem bytesAt_backend_iff (base : BitVec 32) (native : IoreqNative β) (pcidev : Pcidev β)
    (offset : BitVec 32) (width : ℕ) :
    littleEndian (bytesAt (backendByte native pcidev) offset width)
        = littleEndian (bytesAt (pciCfgRead8 base (pciCfgRead native) pcidev) offset width) ↔
      ∀ i < width, AgreesAt base native pcidev (offset + BitVec.ofNat 32 i) := by
  rw [littleEndian_inj (by simp [bytesAt]), bytesAt, bytesAt, List.map_inj_left]
  simp only [List.mem_range, agreesAt_iff]

theorem agreesAt_of_ne {base : BitVec 32} {native : IoreqNative β} {pcidev : Pcidev β}
    {offset : BitVec 32} (hline : offset ≠ pciInterruptLine) (hpin : offset ≠ pciInterruptPin) :
    AgreesAt base native pcidev offset := by
  intro byte hbyte
  rw [emulatedByte, if_neg hline, if_neg hpin] at hbyte
  cases hbyte

theorem ByteConsistent.read_mod {native : IoreqNative β} {pcidev : Pcidev β}
    (h : ByteConsistent native pcidev) {offset : BitVec 32} {width : ℕ}
    (hw : width = 2 ∨ width = 4) (hoff : offset.toNat + width ≤ 2 ^ 32) :
    (pciCfgRead native pcidev offset width).toNat % 256 ^ width
      = littleEndian (bytesAt (backendByte native pcidev) offset width) := by
  obtain ⟨value, hvalue⟩ := Option.isSome_iff_exists.mp (h.succeeds offset width)
  have hread : pciCfgRead native pcidev offset width = value := by
    unfold pciCfgRead pciCfgStart
    unfold backendRead at hvalue
    rw [hvalue]
  rw [hread]
  exact h.wide offset width hw hoff value hvalue

/-- **A wide read against the byte reads.**  It is made of what `pci_cfg_read8` returns for the same
bytes exactly when the backend's own bytes are the emulated ones where it covers any. -/
theorem pciCfgRead_bytes_iff (base : BitVec 32) {native : IoreqNative β} {pcidev : Pcidev β}
    (h : ByteConsistent native pcidev) (offset : BitVec 32) :
    (offset.toNat + 2 ≤ 2 ^ 32 →
        ((pciCfgRead16 native pcidev offset).toNat
            = littleEndian (bytesAt (pciCfgRead8 base (pciCfgRead native) pcidev) offset 2) ↔
          ∀ i < 2, AgreesAt base native pcidev (offset + BitVec.ofNat 32 i))) ∧
      (offset.toNat + 4 ≤ 2 ^ 32 →
        ((pciCfgRead32 native pcidev offset).toNat
            = littleEndian (bytesAt (pciCfgRead8 base (pciCfgRead native) pcidev) offset 4) ↔
          ∀ i < 4, AgreesAt base native pcidev (offset + BitVec.ofNat 32 i))) := by
  constructor
  · intro hoff
    rw [pciCfgRead16, BitVec.toNat_setWidth, ← bytesAt_backend_iff]
    have hread := h.read_mod (Or.inl rfl) hoff
    rw [← hread]
    exact Iff.rfl
  · intro hoff
    rw [pciCfgRead32, BitVec.toNat_setWidth, ← bytesAt_backend_iff]
    have hread := h.read_mod (Or.inr rfl) hoff
    rw [← hread]
    exact Iff.rfl

/-! ### A backend with a register file -/

/-- A backend whose reads return the bytes of `file`. -/
def registerFile (file : ℕ → BitVec 8) : IoreqNative β := fun _ _ _ offset size _ =>
  some (BitVec.ofNat 64 (littleEndian ((List.range size).map fun i => file (offset.toNat + i))))

theorem backendByte_registerFile (file : ℕ → BitVec 8) (pcidev : Pcidev β) (offset : BitVec 32) :
    backendByte (registerFile file) pcidev offset = file offset.toNat := by
  apply BitVec.eq_of_toNat_eq
  have hlt := (file offset.toNat).isLt
  have hoff := offset.isLt
  simp only [backendByte, pciCfgRead, pciCfgStart, registerFile, littleEndian, List.range_one,
    List.map_cons, List.map_nil, Nat.ofDigits_singleton, BitVec.toNat_setWidth, BitVec.toNat_ofNat]
  have hmod : offset.toNat % 2 ^ 64 + 0 = offset.toNat := by omega
  rw [hmod]
  omega

theorem registerFile_byteConsistent (file : ℕ → BitVec 8) (pcidev : Pcidev β) :
    ByteConsistent (registerFile file) pcidev := by
  constructor
  · intro offset size
    rfl
  · intro offset width hw hoff value hvalue
    have hbytes : bytesAt (backendByte (registerFile file) pcidev) offset width
        = (List.range width).map fun i => file ((offset.setWidth 64).toNat + i) := by
      apply List.map_congr_left
      intro i hi
      have hi' := List.mem_range.mp hi
      rw [backendByte_registerFile]
      congr 1
      simp only [BitVec.toNat_add, BitVec.toNat_ofNat, BitVec.toNat_setWidth]
      omega
    have hlt : littleEndian (bytesAt (backendByte (registerFile file) pcidev) offset width)
        < 256 ^ width := by
      have h := littleEndian_lt (bytesAt (backendByte (registerFile file) pcidev) offset width)
      rwa [bytesAt, List.length_map, List.length_range] at h
    have hwide : 256 ^ width ≤ 2 ^ 64 := by
      rcases hw with rfl | rfl
      · decide
      · decide
    cases hvalue
    rw [BitVec.toNat_ofNat, ← hbytes, Nat.mod_eq_of_lt (Nat.lt_of_lt_of_le hlt hwide),
      Nat.mod_eq_of_lt hlt]

end Config

/-- A device in guest slot 1, which is slot 2 of its backend. -/
def slotOneDevice : Pcidev Unit := ⟨8#32, 16#32, ()⟩

/-- The backend's own line and pin registers are 0xff and 1. -/
def ownLineAndPin : ℕ → BitVec 8 := fun i =>
  if i = 0x3c then 0xff#8 else if i = 0x3d then 1#8 else 0#8

/-- The line and the pin read together are those of the backend. -/
theorem wide_read_of_line_and_pin :
    ¬ ∀ (base : BitVec 32) (native : IoreqNative Unit) (pcidev : Pcidev Unit),
      ByteConsistent native pcidev → ∀ offset : BitVec 32, offset.toNat + 2 ≤ 2 ^ 32 →
        (pciCfgRead16 native pcidev offset).toNat
          = littleEndian (bytesAt (pciCfgRead8 base (pciCfgRead native) pcidev) offset 2) := by
  intro h
  have hread := h 0x2f#32 (registerFile ownLineAndPin) slotOneDevice
    (registerFile_byteConsistent ownLineAndPin slotOneDevice) pciInterruptLine (by decide)
  exact absurd hread (by decide)

/-- A wide read of the vendor and device identifiers. -/
theorem pciCfgRead_bytes_ids :
    (pciCfgRead32 (registerFile ownLineAndPin) slotOneDevice 0#32).toNat
      = littleEndian (bytesAt
          (pciCfgRead8 0x2f#32 (pciCfgRead (registerFile ownLineAndPin)) slotOneDevice)
          0#32 4) := by
  have hiff := (pciCfgRead_bytes_iff 0x2f#32
    (registerFile_byteConsistent ownLineAndPin slotOneDevice) 0#32).2 (by decide)
  apply hiff.mpr
  intro i hi
  apply agreesAt_of_ne
  · interval_cases i <;> decide
  · interval_cases i <;> decide

end TiiSel4Vm.Devices
