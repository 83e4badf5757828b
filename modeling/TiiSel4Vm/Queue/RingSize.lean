import TiiSel4Vm.Lib.MaskedIndex
import TiiSel4Vm.Queue.Machine

/-!
# Other ring sizes

`RPCMSG_BUFFER_SIZE` is 32, and the header has a `static_assert` for a build that changes it.  The
ring is indexed with `entry & RPCMSG_BUFFER_MASK`.

* `slotsDistinct_iff_and` — the sizes for which no two live entries share a slot are those of the
  second half of the assertion;
* `asserted_slots_distinct_iff` — the assertion itself accepts every size.
-/

namespace TiiSel4Vm.RpcQueue

open TiiSel4Vm.MaskedIndex

/-- The condition of the `static_assert` on `RPCMSG_BUFFER_SIZE`. -/
def BufferSizeAsserted (n : ℕ) : Prop := n ≠ 0 ∨ n &&& (n - 1) = 0

instance (n : ℕ) : Decidable (BufferSizeAsserted n) :=
  inferInstanceAs (Decidable (n ≠ 0 ∨ n &&& (n - 1) = 0))

/-- `RPCMSG_BUFFER_MASK` for a size, as far as a 32-bit operand sees it. -/
def rpcmsgBufferMask (n : ℕ) : BitVec 32 := BitVec.ofInt 32 (n - 1)

/-- `entry & RPCMSG_BUFFER_MASK` for a size. -/
def ringSlot (n : ℕ) (entry : BitVec 32) : BitVec 32 := entry &&& rpcmsgBufferMask n

/-- Different positions of a window of `n` consecutive ones have slots of their own, below `n`. -/
def SlotsDistinct (n : ℕ) : Prop :=
  ∀ base p q : BitVec 32, InWindow base n p → InWindow base n q → p ≠ q →
    ringSlot n p ≠ ringSlot n q ∧ (ringSlot n p).toNat < n ∧ (ringSlot n q).toNat < n

/-- The slots of the size that is built. -/
theorem ringSlot_rpcmsgBufferSize (entry : BitVec 32) :
    (ringSlot rpcmsgBufferSize entry).toNat = ringIndex entry := rfl

theorem slotsDistinct_iff_dvd (n : ℕ) : SlotsDistinct n ↔ n ∣ 2 ^ 32 ∨ 2 ^ 32 ∣ n :=
  separates_iff 32 n

/-- The assertion accepts every size. -/
theorem bufferSizeAsserted (n : ℕ) : BufferSizeAsserted n := by
  by_cases hn : n = 0
  · rw [hn]
    decide
  · exact Or.inl hn

/-- Among the sizes that positions can count it is the second half of the assertion that decides. -/
theorem slotsDistinct_iff_and {n : ℕ} (hn : n ≠ 0) (hle : n ≤ 2 ^ 32) :
    SlotsDistinct n ↔ n &&& (n - 1) = 0 := by
  rw [slotsDistinct_iff_dvd, Nat.and_sub_one_eq_zero_iff_isPowerOfTwo hn]
  constructor
  · rintro (h | h)
    · obtain ⟨k, -, hk⟩ := (Nat.dvd_prime_pow Nat.prime_two).mp h
      exact ⟨k, hk⟩
    · exact ⟨32, le_antisymm hle (Nat.le_of_dvd (Nat.pos_of_ne_zero hn) h)⟩
  · rintro ⟨k, rfl⟩
    apply Or.inl
    exact pow_dvd_pow 2 ((Nat.pow_le_pow_iff_right (by decide)).mp hle)

/-- **Which of the accepted sizes keep entries apart.**  The assertion accepts all sizes; the
divisors of 2^32 keep entries apart, and so do its multiples, whose mask is all ones. -/
theorem asserted_slots_distinct_iff (n : ℕ) :
    BufferSizeAsserted n ∧ (SlotsDistinct n ↔ n ∣ 2 ^ 32 ∨ 2 ^ 32 ∣ n) :=
  ⟨bufferSizeAsserted n, slotsDistinct_iff_dvd n⟩

/-- With 48 entries positions 0 and 16 have the same slot. -/
theorem asserted_size_shares_slot : ¬ ∀ n, BufferSizeAsserted n → SlotsDistinct n := by
  intro h
  have hslots := (h 48 (by decide) 0#32 0#32 16#32 ⟨0, by decide, rfl⟩ ⟨16, by decide, rfl⟩
    (by decide)).1
  exact hslots rfl

end TiiSel4Vm.RpcQueue
