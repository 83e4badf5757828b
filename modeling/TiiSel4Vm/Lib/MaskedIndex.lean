import Mathlib.Data.Nat.Log
import Mathlib.Data.Nat.Prime.Basic
import TiiSel4Vm.Lib.WrapCounter

/-!
# Indexing by a mask

A ring of `n` slots is indexed by a wrapping position of `w` bits through the mask `n - 1`.

* `two_pow_dvd_succ` — a number whose low bits are all one;
* `separates_iff` — the positions of every window of `n` have slots of their own exactly if `n`
  divides `2 ^ w` or is a multiple of it.
-/

namespace TiiSel4Vm.MaskedIndex

open TiiSel4Vm.WrapCounter

variable {w n : ℕ}

/-- The mask of a ring of `n` slots. -/
def mask (w n : ℕ) : BitVec w := BitVec.ofInt w (n - 1)

/-- The slot of a position. -/
def maskedIndex (n : ℕ) (p : BitVec w) : BitVec w := p &&& mask w n

/-- `p` is one of the `n` positions from `base` on. -/
def InWindow (base : BitVec w) (n : ℕ) (p : BitVec w) : Prop :=
  ∃ i < n, p = base + BitVec.ofNat w i

/-- Different positions of a window of `n` have different slots, all of them below `n`. -/
def Separates (w n : ℕ) : Prop :=
  ∀ base p q : BitVec w, InWindow base n p → InWindow base n q → p ≠ q →
    maskedIndex n p ≠ maskedIndex n q ∧ (maskedIndex n p).toNat < n ∧ (maskedIndex n q).toNat < n

/-! ### Masks -/

theorem mask_succ (w n : ℕ) : mask w (n + 1) = BitVec.ofNat w n := by
  have hsub : ((n + 1 : ℕ) : ℤ) - 1 = n := by omega
  rw [mask, hsub, BitVec.ofInt_natCast]

/-- A number whose low `k` bits are all one is one less than a multiple of `2 ^ k`. -/
theorem two_pow_dvd_succ {k m : ℕ} (h : ∀ j < k, m.testBit j = true) : 2 ^ k ∣ m + 1 := by
  have hmod : m % 2 ^ k = 2 ^ k - 1 := by
    apply Nat.eq_of_testBit_eq
    intro j
    rw [Nat.testBit_mod_two_pow, Nat.testBit_two_pow_sub_one]
    by_cases hj : j < k
    · rw [h j hj, Bool.and_true]
    · simp only [hj, decide_false, Bool.false_and]
  have hpos : 0 < 2 ^ k := Nat.two_pow_pos k
  have hdiv := Nat.div_add_mod m (2 ^ k)
  refine ⟨m / 2 ^ k + 1, ?_⟩
  rw [Nat.mul_add, Nat.mul_one]
  omega

/-- A mask of ones takes a position modulo the size. -/
theorem maskedIndex_two_pow {k : ℕ} (hk : k ≤ w) (p : BitVec w) :
    (maskedIndex (2 ^ k) p).toNat = p.toNat % 2 ^ k := by
  obtain ⟨m, hm⟩ : ∃ m, 2 ^ k = m + 1 := Nat.exists_eq_succ_of_ne_zero (Nat.two_pow_pos k).ne'
  have hlt : m < 2 ^ w := by
    have hle := Nat.pow_le_pow_right (by decide : 0 < 2) hk
    omega
  have hm' : m = 2 ^ k - 1 := by omega
  rw [maskedIndex, hm, mask_succ, BitVec.toNat_and, BitVec.toNat_ofNat, Nat.mod_eq_of_lt hlt, ← hm,
    hm', Nat.and_two_pow_sub_one_eq_mod]

/-- A mask whose low `w` bits are all one leaves a position. -/
theorem maskedIndex_of_dvd (hn : n ≠ 0) (h : 2 ^ w ∣ n) (p : BitVec w) : maskedIndex n p = p := by
  obtain ⟨m, rfl⟩ := Nat.exists_eq_succ_of_ne_zero hn
  obtain ⟨c, hc⟩ := h
  have hpos : 0 < 2 ^ w := Nat.two_pow_pos w
  obtain ⟨c', rfl⟩ : ∃ c', c = c' + 1 := by
    refine Nat.exists_eq_succ_of_ne_zero ?_
    rintro rfl
    exact hn (hc.trans (Nat.mul_zero _))
  have hm : m = 2 ^ w * c' + (2 ^ w - 1) := by
    rw [Nat.mul_add, Nat.mul_one] at hc
    omega
  have hmod : m % 2 ^ w = 2 ^ w - 1 := by
    rw [hm, Nat.mul_add_mod, Nat.mod_eq_of_lt (by omega)]
  apply BitVec.eq_of_toNat_eq
  rw [maskedIndex, mask_succ, BitVec.toNat_and, BitVec.toNat_ofNat, hmod,
    Nat.and_two_pow_sub_one_eq_mod, Nat.mod_eq_of_lt p.isLt]

/-! ### Windows -/

/-- The positions of a window are apart modulo a divisor of `2 ^ w` of its length. -/
theorem InWindow.mod_ne {base p q : BitVec w} (hn : n ∣ 2 ^ w) (hp : InWindow base n p)
    (hq : InWindow base n q) (hne : p ≠ q) : p.toNat % n ≠ q.toNat % n := by
  obtain ⟨i, hi, rfl⟩ := hp
  obtain ⟨j, hj, rfl⟩ := hq
  have hmod : ∀ i, (base + BitVec.ofNat w i).toNat % n = (base.toNat + i) % n := by
    intro i
    rw [BitVec.toNat_add, BitVec.toNat_ofNat, Nat.add_mod_mod, Nat.mod_mod_of_dvd _ hn]
  rw [hmod, hmod]
  intro heq
  have hsame := mod_inj_in_window (Nat.le_add_right base.toNat i) (by omega)
    (Nat.le_add_right base.toNat j) (by omega) heq
  have hij : i = j := by omega
  exact hne (hij ▸ rfl)

/-- A clear bit of the mask below the size puts two positions in one slot. -/
theorem testBit_of_separates (h : Separates w n) {j : ℕ} (hj : j < w) (hlt : 2 ^ j < n) :
    (n - 1).testBit j = true := by
  obtain ⟨m, rfl⟩ := Nat.exists_eq_succ_of_ne_zero (Nat.ne_of_gt (Nat.zero_lt_of_lt hlt))
  by_contra hclear
  have hzero : (maskedIndex (m + 1) (0#w)) = 0#w := BitVec.zero_and
  have hbit : (maskedIndex (m + 1) (BitVec.twoPow w j)) = 0#w := by
    rw [maskedIndex, mask_succ]
    apply BitVec.eq_of_getLsbD_eq
    intro i _
    rw [BitVec.getLsbD_and, BitVec.getLsbD_twoPow, BitVec.getLsbD_ofNat]
    by_cases hij : j = i
    · subst hij
      have hzero : m.testBit j = false := by simpa using hclear
      rw [hzero, Bool.and_false, Bool.and_false, BitVec.getLsbD_zero]
    · simp [hij]
  have hne : 0#w ≠ BitVec.twoPow w j := by
    intro heq
    have hget := congrArg (fun v => v.getLsbD j) heq
    simp [hj] at hget
  have hpow : BitVec.twoPow w j = 0#w + BitVec.ofNat w (2 ^ j) := by
    rw [BitVec.zero_add]
    apply BitVec.eq_of_toNat_eq
    rw [BitVec.toNat_twoPow, BitVec.toNat_ofNat]
  obtain ⟨hslots, -, -⟩ := h 0#w 0#w (BitVec.twoPow w j) ⟨0, by omega, by simp⟩
    ⟨2 ^ j, hlt, hpow⟩ hne
  exact hslots (hzero.trans hbit.symm)

/-- **When a ring of `n` separates positions.** -/
theorem separates_iff (w n : ℕ) : Separates w n ↔ n ∣ 2 ^ w ∨ 2 ^ w ∣ n := by
  constructor
  · intro h
    cases n with
    | zero => exact Or.inr (dvd_zero _)
    | succ m =>
        rcases Nat.lt_or_ge (2 ^ w) (m + 1) with hbig | hsmall
        · apply Or.inr
          refine two_pow_dvd_succ fun j hj => testBit_of_separates h hj ?_
          exact (Nat.pow_lt_pow_right (by decide) hj).trans hbig
        · apply Or.inl
          -- the least power of two that is not below the size
          have hlow : ∀ j < Nat.clog 2 (m + 1), m.testBit j = true := by
            intro j hj
            have hlt := (Nat.lt_clog_iff_pow_lt (by decide)).mp hj
            refine testBit_of_separates h ?_ hlt
            exact (Nat.pow_lt_pow_iff_right (by decide)).mp (hlt.trans_le hsmall)
          have hdvd := two_pow_dvd_succ hlow
          have heq : m + 1 = 2 ^ Nat.clog 2 (m + 1) :=
            le_antisymm (Nat.le_pow_clog (by decide) _) (Nat.le_of_dvd (Nat.succ_pos m) hdvd)
          rw [heq] at hsmall ⊢
          exact pow_dvd_pow 2 ((Nat.pow_le_pow_iff_right (by decide)).mp hsmall)
  · rintro (h | h) base p q hp hq hne
    · obtain ⟨k, hk, rfl⟩ := (Nat.dvd_prime_pow Nat.prime_two).mp h
      have hpos : 0 < 2 ^ k := Nat.two_pow_pos k
      rw [maskedIndex_two_pow hk, maskedIndex_two_pow hk]
      refine ⟨fun heq => hp.mod_ne h hq hne ?_, Nat.mod_lt _ hpos, Nat.mod_lt _ hpos⟩
      rw [← maskedIndex_two_pow hk, ← maskedIndex_two_pow hk, heq]
    · have hn : n ≠ 0 := by
        rintro rfl
        obtain ⟨i, hi, -⟩ := hp
        exact Nat.not_lt_zero i hi
      have hle := Nat.le_of_dvd (Nat.pos_of_ne_zero hn) h
      rw [maskedIndex_of_dvd hn h, maskedIndex_of_dvd hn h]
      exact ⟨hne, p.isLt.trans_le hle, q.isLt.trans_le hle⟩

end TiiSel4Vm.MaskedIndex
