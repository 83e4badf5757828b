import TiiSel4Vm.Queue.Machine

/-!
# Bitmaps of unsigned longs

`_find_first_zero_bit`, `_set_bit` and `_clear_bit` of the header, on a bitmap of any number of
64-bit words.  `bitSet` is what a bitmap means: the set of indices whose bit is one.

* `findFirstZeroBit_spec` — the smallest clear index below the size, or the size;
* `bitSet_setBit`, `bitSet_clearBit` — each call changes the membership of its own index only.
-/

namespace TiiSel4Vm.RpcQueue

/-! ### The three functions -/

/-- `8 * sizeof(unsigned long)`. -/
abbrev nBits : ℕ := 64

/-- An array of `unsigned long`. -/
abbrev Bitmap := List Word

/-- The loop of `_find_first_zero_bit` from word `i` on, `ws` being the words `addr[i]`, …: it stops
at the first word with a zero bit, or when `i * n_bits` reaches the size. -/
def findFirstZeroBitFrom (n : ℕ) : ℕ → Bitmap → ℕ
  | _, [] => n
  | i, w :: ws =>
      if i * nBits < n then
        if ~~~w ≠ 0#64 then min (i * nBits + (~~~w).ctz.toNat) n
        else findFirstZeroBitFrom n (i + 1) ws
      else n

/-- `_find_first_zero_bit`. -/
def findFirstZeroBit (addr : Bitmap) (size : ℕ) : ℕ := findFirstZeroBitFrom size 0 addr

/-- `1UL << (nr % n_bits)`. -/
def bitMask (nr : ℕ) : Word := 1#64 <<< (nr % nBits)

/-- `_set_bit`. -/
def setBit (nr : ℕ) (addr : Bitmap) : Bitmap := addr.modify (nr / nBits) (· ||| bitMask nr)

/-- `_clear_bit`. -/
def clearBit (nr : ℕ) (addr : Bitmap) : Bitmap := addr.modify (nr / nBits) (· &&& ~~~(bitMask nr))

/-! ### The meaning of a bitmap -/

/-- The bit with index `nr`. -/
def testBit (addr : Bitmap) (nr : ℕ) : Bool := (addr.getD (nr / nBits) 0#64).getLsbD (nr % nBits)

/-- The indices whose bit is one. -/
def bitSet (addr : Bitmap) : Set ℕ := {nr | testBit addr nr = true}

/-- The bitmap has a word for index `nr`. -/
def Covers (addr : Bitmap) (nr : ℕ) : Prop := nr < nBits * addr.length

@[simp] theorem length_setBit (nr : ℕ) (addr : Bitmap) : (setBit nr addr).length = addr.length :=
  List.length_modify ..

@[simp] theorem length_clearBit (nr : ℕ) (addr : Bitmap) :
    (clearBit nr addr).length = addr.length :=
  List.length_modify ..

theorem getLsbD_bitMask {nr b : ℕ} (hb : b < nBits) :
    (bitMask nr).getLsbD b = decide (b = nr % nBits) := by
  have hlt : nr % nBits < nBits := Nat.mod_lt _ (by decide)
  simp only [nBits] at hb hlt
  simp only [bitMask, nBits, BitVec.getLsbD_shiftLeft, BitVec.getLsbD_one]
  grind

/-- Two indices in the same word with the same offset are equal. -/
theorem index_eq_iff {n k : ℕ} : k = n ↔ k / nBits = n / nBits ∧ k % nBits = n % nBits := by
  constructor
  · rintro rfl
    exact ⟨rfl, rfl⟩
  · rintro ⟨hd, hm⟩
    have hk := Nat.div_add_mod k nBits
    have hn := Nat.div_add_mod n nBits
    rw [hd, hm] at hk
    exact hk.symm.trans hn

/-- Reading a word of a bitmap in which one word was changed. -/
theorem getD_modify {f : Word → Word} {i j : ℕ} {addr : Bitmap} (hi : i < addr.length) :
    (addr.modify i f).getD j 0#64 = if i = j then f (addr.getD j 0#64) else addr.getD j 0#64 := by
  rw [List.getD_eq_getElem?_getD, List.getElem?_modify]
  by_cases hij : i = j
  · subst hij
    simp [List.getElem?_eq_getElem hi]
  · simp [hij]

theorem Covers.div_lt {addr : Bitmap} {nr : ℕ} (h : Covers addr nr) : nr / nBits < addr.length :=
  Nat.div_lt_of_lt_mul h

/-- A change of one bit of a word is a change of one bit of the bitmap. -/
theorem testBit_modify {f : Word → Word} {g : Bool → Bool} {addr : Bitmap} {nr : ℕ}
    (h : Covers addr nr)
    (hf : ∀ w, ∀ b < nBits,
      (f w).getLsbD b = if b = nr % nBits then g (w.getLsbD b) else w.getLsbD b)
    (k : ℕ) :
    testBit (addr.modify (nr / nBits) f) k
      = if k = nr then g (testBit addr k) else testBit addr k := by
  have hoff : k % nBits < nBits := Nat.mod_lt _ (by decide)
  unfold testBit
  rw [getD_modify h.div_lt]
  by_cases hword : nr / nBits = k / nBits
  · rw [if_pos hword, hf _ _ hoff]
    simp only [index_eq_iff (n := nr), hword, true_and]
  · have hne : k ≠ nr := by
      rintro rfl
      exact hword rfl
    rw [if_neg hword, if_neg hne]

theorem testBit_setBit {addr : Bitmap} {nr : ℕ} (h : Covers addr nr) (k : ℕ) :
    testBit (setBit nr addr) k = (testBit addr k || decide (k = nr)) := by
  have hset : testBit (setBit nr addr) k = if k = nr then true else testBit addr k := by
    refine testBit_modify (g := fun _ => true) h (fun w b hb => ?_) k
    rw [BitVec.getLsbD_or, getLsbD_bitMask hb]
    by_cases heq : b = nr % nBits <;> simp [heq]
  rw [hset]
  by_cases hk : k = nr <;> simp [hk]

theorem testBit_clearBit {addr : Bitmap} {nr : ℕ} (h : Covers addr nr) (k : ℕ) :
    testBit (clearBit nr addr) k = (testBit addr k && !decide (k = nr)) := by
  have hclear : testBit (clearBit nr addr) k = if k = nr then false else testBit addr k := by
    refine testBit_modify (g := fun _ => false) h (fun w b hb => ?_) k
    rw [BitVec.getLsbD_and, BitVec.getLsbD_not, getLsbD_bitMask hb]
    simp only [nBits] at hb
    by_cases heq : b = nr % nBits <;> simp [heq, hb]
  rw [hclear]
  by_cases hk : k = nr <;> simp [hk]

/-- **Setting a bit inserts its index.** -/
theorem bitSet_setBit {addr : Bitmap} {nr : ℕ} (h : Covers addr nr) :
    bitSet (setBit nr addr) = insert nr (bitSet addr) := by
  ext k
  simp [bitSet, testBit_setBit h, or_comm]

/-- **Clearing a bit removes its index.** -/
theorem bitSet_clearBit {addr : Bitmap} {nr : ℕ} (h : Covers addr nr) :
    bitSet (clearBit nr addr) = bitSet addr \ {nr} := by
  ext k
  simp [bitSet, testBit_clearBit h]

/-! ### The first clear bit -/

theorem testBit_cons_of_lt {w : Word} {ws : Bitmap} {k : ℕ} (h : k < nBits) :
    testBit (w :: ws) k = w.getLsbD k := by
  simp [testBit, Nat.div_eq_of_lt h, Nat.mod_eq_of_lt h]

theorem testBit_cons_add {w : Word} {ws : Bitmap} {k : ℕ} :
    testBit (w :: ws) (k + nBits) = testBit ws k := by
  have hd : (k + nBits) / nBits = k / nBits + 1 := Nat.add_div_right k (by decide)
  simp [testBit, hd]

/-- Every bit of a word whose complement is zero is one. -/
theorem getLsbD_of_not_eq_zero {w : Word} (h : ~~~w = 0#64) {k : ℕ} (hk : k < nBits) :
    w.getLsbD k = true := by
  have hbit : (~~~w).getLsbD k = false := by rw [h, BitVec.getLsbD_zero]
  rw [BitVec.getLsbD_not] at hbit
  simp only [nBits] at hk
  simpa [hk] using hbit

theorem testBit_cons_of_not_eq_zero {w : Word} {ws : Bitmap} (h : ~~~w = 0#64) {k : ℕ}
    (hk : k < nBits) : testBit (w :: ws) k = true := by
  rw [testBit_cons_of_lt hk]
  exact getLsbD_of_not_eq_zero h hk

/-- The first zero bit of a word that has one. -/
theorem ctz_not_spec {w : Word} (h : ~~~w ≠ 0#64) :
    (~~~w).ctz.toNat < nBits ∧ (∀ k < (~~~w).ctz.toNat, w.getLsbD k = true) ∧
      w.getLsbD (~~~w).ctz.toNat = false := by
  have hlt : (~~~w).ctz.toNat < nBits := BitVec.lt_def.mp (BitVec.ctz_lt_iff_ne_zero.mpr h)
  refine ⟨hlt, fun k hk => ?_, ?_⟩
  · have hk64 : k < 64 := Nat.lt_trans hk hlt
    have hbit := BitVec.getLsbD_false_of_lt_ctz hk
    rw [BitVec.getLsbD_not] at hbit
    simpa [hk64] using hbit
  · have hbit := BitVec.getLsbD_true_ctz_of_ne_zero h
    rw [BitVec.getLsbD_not] at hbit
    simpa using (Bool.and_eq_true_iff.mp hbit).2

/-- The loop ends with the word in which the size ends. -/
theorem findFirstZeroBitFrom_of_le {n i : ℕ} {ws : Bitmap} (h : n ≤ i * nBits) :
    findFirstZeroBitFrom n i ws = n := by
  cases ws with
  | nil => rfl
  | cons w ws => rw [findFirstZeroBitFrom, if_neg (Nat.not_lt.mpr h)]

/-- The loop from word `i` on: relative to the bits of the remaining words. -/
theorem findFirstZeroBitFrom_spec {n : ℕ} {i : ℕ} {ws : Bitmap}
    (hcover : n ≤ i * nBits + nBits * ws.length) (hle : i * nBits ≤ n) :
    i * nBits ≤ findFirstZeroBitFrom n i ws ∧ findFirstZeroBitFrom n i ws ≤ n ∧
      (∀ k, i * nBits + k < findFirstZeroBitFrom n i ws → testBit ws k = true) ∧
      (findFirstZeroBitFrom n i ws < n →
        testBit ws (findFirstZeroBitFrom n i ws - i * nBits) = false) := by
  induction ws generalizing i with
  | nil =>
      simp only [List.length_nil, Nat.mul_zero, Nat.add_zero] at hcover
      refine ⟨hle, le_refl _, fun k hk => ?_, fun h => absurd h (Nat.lt_irrefl _)⟩
      simp only [findFirstZeroBitFrom] at hk
      omega
  | cons w ws ih =>
      simp only [findFirstZeroBitFrom]
      by_cases hlt : i * nBits < n
      · rw [if_pos hlt]
        by_cases hv : ~~~w = 0#64
        · -- every bit of this word is one: the loop goes on
          rw [if_neg (not_not.mpr hv)]
          by_cases hnext : (i + 1) * nBits ≤ n
          · have hcover' : n ≤ (i + 1) * nBits + nBits * ws.length := by
              simp only [List.length_cons] at hcover
              rw [Nat.add_mul, Nat.one_mul]
              rw [Nat.mul_add, Nat.mul_one] at hcover
              omega
            obtain ⟨h1, h2, h3, h4⟩ := ih hcover' hnext
            rw [Nat.add_mul, Nat.one_mul] at h1 h3 h4
            refine ⟨by omega, h2, fun k hk => ?_, fun h => ?_⟩
            · by_cases hk64 : k < nBits
              · exact testBit_cons_of_not_eq_zero hv hk64
              · obtain ⟨j, rfl⟩ := Nat.exists_eq_add_of_le (Nat.le_of_not_lt hk64)
                rw [Nat.add_comm, testBit_cons_add]
                exact h3 j (by omega)
            · have hsplit : findFirstZeroBitFrom n (i + 1) ws - i * nBits
                  = findFirstZeroBitFrom n (i + 1) ws - (i * nBits + nBits) + nBits := by omega
              rw [hsplit, testBit_cons_add]
              exact h4 h
          · -- the size ends inside this word, and no bit of it is zero
            rw [findFirstZeroBitFrom_of_le (Nat.le_of_not_le hnext)]
            rw [Nat.add_mul, Nat.one_mul] at hnext
            refine ⟨hle, le_refl _, fun k hk => ?_, fun h => absurd h (Nat.lt_irrefl _)⟩
            exact testBit_cons_of_not_eq_zero hv (by omega)
        · rw [if_pos hv]
          obtain ⟨hctz, hones, hzero⟩ := ctz_not_spec hv
          refine ⟨by omega, Nat.min_le_right _ _, fun k hk => ?_, fun h => ?_⟩
          · rw [testBit_cons_of_lt (by omega)]
            exact hones k (by omega)
          · have hval : min (i * nBits + (~~~w).ctz.toNat) n - i * nBits = (~~~w).ctz.toNat := by
              omega
            rw [hval, testBit_cons_of_lt hctz]
            exact hzero
      · rw [if_neg hlt]
        refine ⟨hle, le_refl _, fun k hk => ?_, fun h => absurd h (Nat.lt_irrefl _)⟩
        omega

/-- **The first clear bit.**  On a bitmap that covers `size`: the smallest index below `size` whose
bit is clear, or `size` if there is none. -/
theorem findFirstZeroBit_spec {addr : Bitmap} {size : ℕ} (hcover : size ≤ nBits * addr.length) :
    findFirstZeroBit addr size ≤ size ∧
      (∀ k, k < findFirstZeroBit addr size → k ∈ bitSet addr) ∧
      (findFirstZeroBit addr size < size → findFirstZeroBit addr size ∉ bitSet addr) := by
  have hcover0 : size ≤ 0 * nBits + nBits * addr.length := by omega
  obtain ⟨_, h2, h3, h4⟩ := findFirstZeroBitFrom_spec hcover0 (by omega)
  refine ⟨h2, fun k hk => h3 k (by simpa [findFirstZeroBit] using hk), fun h => ?_⟩
  have hzero := h4 h
  simp only [Nat.zero_mul, Nat.sub_zero] at hzero
  show ¬ testBit addr (findFirstZeroBitFrom size 0 addr) = true
  rw [hzero]
  exact Bool.false_ne_true

end TiiSel4Vm.RpcQueue
