import TiiSel4Vm.Lib.IndexSet
import TiiSel4Vm.Rpc.Lend

/-!
# Bitmaps as sets of indices

A bitmap is a finite set of indices to its three functions, whatever its size and whatever the bits
from the size on.

* `bitCall_simulates` — what a call returns and leaves is what the call on the set does;
* `bitmap_implements_set` — and so for every sequence of calls;
* `findFirstZeroBitWord_eq` — the loop on `unsigned long`s.
-/

namespace TiiSel4Vm.RpcQueue

open TiiSel4Vm.IndexSet

/-! ### The set of a bitmap -/

/-- The set of indices a bitmap stands for. -/
def indices (addr : Bitmap) : Finset ℕ :=
  (Finset.range (nBits * addr.length)).filter fun nr => testBit addr nr = true

/-- There is no word for an index that is not covered. -/
theorem testBit_of_not_covers {addr : Bitmap} {nr : ℕ} (h : ¬ Covers addr nr) :
    testBit addr nr = false := by
  have hle : addr.length ≤ nr / nBits :=
    (Nat.le_div_iff_mul_le (by decide)).mpr (by rw [Nat.mul_comm]; exact Nat.le_of_not_lt h)
  rw [testBit, List.getD_eq_getElem?_getD, List.getElem?_eq_none hle, Option.getD_none,
    BitVec.getLsbD_zero]

@[simp] theorem mem_indices {addr : Bitmap} {nr : ℕ} :
    nr ∈ indices addr ↔ testBit addr nr = true := by
  rw [indices, Finset.mem_filter, Finset.mem_range]
  refine ⟨And.right, fun hbit => ⟨?_, hbit⟩⟩
  by_contra hcover
  rw [testBit_of_not_covers hcover] at hbit
  exact absurd hbit Bool.false_ne_true

theorem coe_indices (addr : Bitmap) : (indices addr : Set ℕ) = bitSet addr := by
  ext nr
  exact mem_indices

variable {addr : Bitmap} {size nr : ℕ}

/-- Setting a bit inserts its index. -/
theorem indices_setBit (h : Covers addr nr) :
    indices (setBit nr addr) = insert nr (indices addr) := by
  rw [← Finset.coe_inj, coe_indices, bitSet_setBit h, Finset.coe_insert, coe_indices]

/-- Clearing a bit erases its index. -/
theorem indices_clearBit (h : Covers addr nr) :
    indices (clearBit nr addr) = (indices addr).erase nr := by
  rw [← Finset.coe_inj, coe_indices, bitSet_clearBit h, Finset.coe_erase, coe_indices]

/-- The search finds the first index that is free. -/
theorem findFirstZeroBit_eq_firstFree (h : size ≤ nBits * addr.length) :
    findFirstZeroBit addr size = firstFree (indices addr) size := by
  obtain ⟨hle, hbelow, hfree⟩ := findFirstZeroBit_spec h
  simp only [← coe_indices, Finset.mem_coe] at hbelow hfree
  exact (firstFree_eq_iff.mpr ⟨hle, hbelow, hfree⟩).symm

/-! ### Sequences of calls -/

/-- A call of one of the three functions. -/
inductive BitCall where
  | findFirstZeroBit (size : ℕ)
  | setBit (nr : ℕ)
  | clearBit (nr : ℕ)

/-- A bitmap of `words` words has the bits that the call is about. -/
def BitCall.Covered (words : ℕ) : BitCall → Prop
  | .findFirstZeroBit size => size ≤ nBits * words
  | .setBit nr => nr < nBits * words
  | .clearBit nr => nr < nBits * words

/-- What a call returns, and the bitmap it leaves. -/
def bitCall (addr : Bitmap) : BitCall → Option ℕ × Bitmap
  | .findFirstZeroBit size => (some (findFirstZeroBit addr size), addr)
  | .setBit nr => (none, setBit nr addr)
  | .clearBit nr => (none, clearBit nr addr)

/-- The call on the set of indices. -/
def setCall (s : Finset ℕ) : BitCall → Option ℕ × Finset ℕ
  | .findFirstZeroBit size => call s (.firstFree size)
  | .setBit nr => call s (.insert nr)
  | .clearBit nr => call s (.erase nr)

/-- A bitmap of `words` words stands for the set. -/
structure StandsFor (words : ℕ) (addr : Bitmap) (s : Finset ℕ) : Prop where
  length_eq : addr.length = words
  indices_eq : indices addr = s

/-- **One call.** -/
theorem bitCall_simulates {words : ℕ} (a : Bitmap) (s : Finset ℕ) (c : BitCall)
    (h : StandsFor words a s) (hc : c.Covered words) :
    (bitCall a c).1 = (setCall s c).1 ∧ StandsFor words (bitCall a c).2 (setCall s c).2 := by
  obtain ⟨rfl, rfl⟩ := h
  cases c with
  | findFirstZeroBit size =>
      exact ⟨congrArg some (findFirstZeroBit_eq_firstFree hc), rfl, rfl⟩
  | setBit nr => exact ⟨rfl, length_setBit nr a, indices_setBit hc⟩
  | clearBit nr => exact ⟨rfl, length_clearBit nr a, indices_clearBit hc⟩

theorem bitCalls_simulate {cs : List BitCall} (hcs : ∀ c ∈ cs, c.Covered addr.length) :
    (answers bitCall addr cs).1 = (answers setCall (indices addr) cs).1 ∧
      StandsFor addr.length (answers bitCall addr cs).2 (answers setCall (indices addr) cs).2 :=
  answers_simulate bitCall_simulates hcs ⟨rfl, rfl⟩

/-- `r` is the smallest index below `size` whose bit is clear, or `size` if there is none. -/
def FirstClear (addr : Bitmap) (size r : ℕ) : Prop :=
  (∀ k < r, testBit addr k = true) ∧ (r < size ∧ testBit addr r = false ∨ r = size)

/-- The bitmap is a finite set of indices to its functions. -/
structure ImplementsSet (addr : Bitmap) : Prop where
  /-- the search, for every size the bitmap covers -/
  first : ∀ size ≤ nBits * addr.length, ∀ r,
    findFirstZeroBit addr size = r ↔ FirstClear addr size r
  /-- the bits from the size on, and the words behind them, have no say in it -/
  unused : ∀ size ≤ nBits * addr.length, ∀ addr' : Bitmap, size ≤ nBits * addr'.length →
    (∀ k < size, testBit addr' k = testBit addr k) →
      findFirstZeroBit addr' size = findFirstZeroBit addr size
  /-- `_set_bit` and `_clear_bit` are about the index given, and no other -/
  set : ∀ nr, Covers addr nr → ∀ k,
    k ∈ indices (setBit nr addr) ↔ k = nr ∨ k ∈ indices addr
  clear : ∀ nr, Covers addr nr → ∀ k,
    k ∈ indices (clearBit nr addr) ↔ k ≠ nr ∧ k ∈ indices addr
  /-- every sequence of calls answers like the set, and ends at it -/
  calls : ∀ cs : List BitCall, (∀ c ∈ cs, c.Covered addr.length) →
    (answers bitCall addr cs).1 = (answers setCall (indices addr) cs).1 ∧
      StandsFor addr.length (answers bitCall addr cs).2 (answers setCall (indices addr) cs).2

theorem firstClear_iff {r : ℕ} : FirstClear addr size r ↔ firstFree (indices addr) size = r := by
  rw [firstFree_eq_iff, FirstClear]
  simp only [mem_indices, Bool.not_eq_true]
  constructor
  · rintro ⟨hbelow, ⟨hlt, hclear⟩ | rfl⟩
    · exact ⟨hlt.le, hbelow, fun _ => hclear⟩
    · exact ⟨le_rfl, hbelow, fun hlt => absurd hlt (Nat.lt_irrefl r)⟩
  · rintro ⟨hle, hbelow, hclear⟩
    refine ⟨hbelow, ?_⟩
    rcases Nat.lt_or_eq_of_le hle with hlt | heq
    · exact Or.inl ⟨hlt, hclear hlt⟩
    · exact Or.inr heq

/-- **Bitmaps implement sets.** -/
theorem bitmap_implements_set (addr : Bitmap) : ImplementsSet addr where
  first size h r := by rw [firstClear_iff, findFirstZeroBit_eq_firstFree h]
  unused size h addr' h' hsame := by
    rw [findFirstZeroBit_eq_firstFree h, findFirstZeroBit_eq_firstFree h']
    apply firstFree_congr
    intro k hk
    rw [mem_indices, mem_indices, hsame k hk]
  set nr h k := by rw [indices_setBit h, Finset.mem_insert]
  clear nr h k := by rw [indices_clearBit h, Finset.mem_erase]
  calls _ hcs := bitCalls_simulate hcs

/-- Lending answers "all messages in use" exactly when each of them is in the set. -/
theorem rpcmsgLendBuffer_eq_none_iff {state : Bitmap} (h : CoversBuffers state) :
    (rpcmsgLendBuffer state).1 = none ↔ ∀ id < rpcmsgBufferSize, id ∈ indices state := by
  rw [← firstFree_eq_size_iff, ← findFirstZeroBit_eq_firstFree h, rpcmsgLendBuffer, lendScan]
  obtain ⟨hle, -⟩ := findFirstZeroBit_spec h
  split
  · rename_i hscan
    split at hscan
    · cases hscan
    · rename_i hge
      exact iff_of_true rfl (le_antisymm hle (Nat.le_of_not_lt hge))
  · rename_i hscan
    split at hscan
    · rename_i hlt
      exact iff_of_false (Option.some_ne_none _) hlt.ne
    · cases hscan

/-! ### The loop on machine words -/

/-- The loop of `_find_first_zero_bit` on `unsigned long`s, from word `i` on; `none` when it reads
behind the words there are. -/
def findFirstZeroBitWordFrom (n : Word) : Word → Bitmap → Option Word
  | i, [] => if i * 64#64 < n then none else some n
  | i, w :: ws =>
      if i * 64#64 < n then
        if ~~~w ≠ 0#64 then
          some (if i * 64#64 + (~~~w).ctz < n then i * 64#64 + (~~~w).ctz else n)
        else findFirstZeroBitWordFrom n (i + 1) ws
      else some n

/-- `_find_first_zero_bit` on `unsigned long`s. -/
def findFirstZeroBitWord (addr : Bitmap) (size : Word) : Option Word :=
  findFirstZeroBitWordFrom size 0#64 addr

/-- The first index of a word whose last index does not wrap. -/
theorem toNat_mul_nBits {i : Word} {k : ℕ} (h : i.toNat * nBits + k < 2 ^ 64) :
    (i * 64#64).toNat = i.toNat * nBits := by
  rw [BitVec.toNat_mul]
  exact Nat.mod_eq_of_lt (lt_of_le_of_lt (Nat.le_add_right _ k) h)

/-- `min` of an index in word `i` and the size. -/
theorem min_word {i c n : Word} (hmem : i.toNat * nBits + nBits ≤ 2 ^ 64) (hc : c.toNat < nBits) :
    (if i * 64#64 + c < n then i * 64#64 + c else n)
      = BitVec.ofNat 64 (min (i.toNat * nBits + c.toNat) n.toNat) := by
  have hlt : i.toNat * nBits + c.toNat < 2 ^ 64 := by omega
  have hsum : (i * 64#64 + c).toNat = i.toNat * nBits + c.toNat := by
    rw [BitVec.toNat_add, toNat_mul_nBits hlt, Nat.mod_eq_of_lt hlt]
  have hbound : i * 64#64 + c < n ↔ i.toNat * nBits + c.toNat < n.toNat := by
    rw [BitVec.lt_def, hsum]
  by_cases hle : i.toNat * nBits + c.toNat < n.toNat
  · rw [if_pos (hbound.mpr hle), Nat.min_eq_left hle.le, ← hsum, BitVec.ofNat_toNat,
      BitVec.setWidth_eq]
  · rw [if_neg (hbound.not.mpr hle), Nat.min_eq_right (Nat.le_of_not_lt hle), BitVec.ofNat_toNat,
      BitVec.setWidth_eq]

theorem findFirstZeroBitWordFrom_eq {n i : Word} {ws : Bitmap}
    (hcover : n.toNat ≤ i.toNat * nBits + nBits * ws.length)
    (hmem : i.toNat * nBits + nBits * ws.length < 2 ^ 64) :
    findFirstZeroBitWordFrom n i ws
      = some (BitVec.ofNat 64 (findFirstZeroBitFrom n.toNat i.toNat ws)) := by
  induction ws generalizing i with
  | nil =>
      have hend : ¬ i * 64#64 < n := by
        rw [BitVec.lt_def, toNat_mul_nBits hmem]
        exact Nat.not_lt.mpr hcover
      rw [findFirstZeroBitWordFrom, if_neg hend, findFirstZeroBitFrom, BitVec.ofNat_toNat,
        BitVec.setWidth_eq]
  | cons w ws ih =>
      have hbound : i * 64#64 < n ↔ i.toNat * nBits < n.toNat := by
        rw [BitVec.lt_def, toNat_mul_nBits hmem]
      rw [List.length_cons, Nat.mul_add, Nat.mul_one] at hcover hmem
      simp only [findFirstZeroBitWordFrom, findFirstZeroBitFrom, hbound]
      by_cases hlt : i.toNat * nBits < n.toNat
      · rw [if_pos hlt, if_pos hlt]
        by_cases hv : ~~~w = 0#64
        · -- the index of the next word does not wrap either
          have hnext : (i + 1).toNat = i.toNat + 1 := by
            rw [BitVec.toNat_add]
            refine Nat.mod_eq_of_lt ?_
            simp only [nBits] at hmem
            show i.toNat + 1 < 2 ^ 64
            omega
          have hsplit : (i + 1).toNat * nBits + nBits * ws.length
              = i.toNat * nBits + (nBits * ws.length + nBits) := by
            rw [hnext, Nat.add_mul, Nat.one_mul]
            omega
          rw [if_neg (not_not.mpr hv), if_neg (not_not.mpr hv), ih (hsplit ▸ hcover)
            (hsplit ▸ hmem), hnext]
        · rw [if_pos hv, if_pos hv, min_word (by omega) (ctz_not_spec hv).1]
      · rw [if_neg hlt, if_neg hlt, BitVec.ofNat_toNat, BitVec.setWidth_eq]

/-- **The loop on machine words.**  On a bitmap that fits in memory it does not read behind the
bitmap, no product or sum of it wraps, and it returns what the one above does. -/
theorem findFirstZeroBitWord_eq {addr : Bitmap} {size : Word}
    (hcover : size.toNat ≤ nBits * addr.length) (hmem : nBits * addr.length < 2 ^ 64) :
    findFirstZeroBitWord addr size
      = some (BitVec.ofNat 64 (findFirstZeroBit addr size.toNat)) := by
  apply findFirstZeroBitWordFrom_eq
  · rw [BitVec.toNat_ofNat, Nat.zero_mod, Nat.zero_mul, Nat.zero_add]
    exact hcover
  · rw [BitVec.toNat_ofNat, Nat.zero_mod, Nat.zero_mul, Nat.zero_add]
    exact hmem

end TiiSel4Vm.RpcQueue
