import Mathlib.Data.BitVec
import Mathlib.Tactic.Common

/-!
# Wrapping counters

A counter kept in `w` bits is the truncation of a counter that never wraps.  As long as the two
unbounded values are less than `2 ^ w` apart, comparing, subtracting and indexing the truncations
gives the unbounded answer, whether or not one of them has wrapped in between.

* `wrap_inj` — equal truncations of close counters are equal counters;
* `wrap_sub_toNat` — the wrapped difference is the true difference;
* `wrap_sub_le_iff` — a wrapped distance test is the true distance test;
* `mod_inj_of_window` — positions in a window of `n` have distinct residues modulo `n`.
-/

namespace TiiSel4Vm.WrapCounter

variable {w : ℕ}

/-- Close counters with equal truncations are equal. -/
theorem wrap_inj {a b : ℕ} (hle : a ≤ b) (hlt : b - a < 2 ^ w)
    (h : BitVec.ofNat w a = BitVec.ofNat w b) : a = b := by
  have hmod : a % 2 ^ w = b % 2 ^ w := by
    simpa only [BitVec.toNat_ofNat] using congrArg BitVec.toNat h
  have hsub : (b - a) % 2 ^ w = 0 := Nat.sub_mod_eq_zero_of_mod_eq hmod.symm
  rw [Nat.mod_eq_of_lt hlt] at hsub
  omega

/-- The wrapped difference of two close counters is their true difference. -/
theorem wrap_sub_toNat {a b : ℕ} (hle : b ≤ a) (hlt : a - b < 2 ^ w) :
    (BitVec.ofNat w a - BitVec.ofNat w b).toNat = a - b := by
  have hsum : BitVec.ofNat w a = BitVec.ofNat w (a - b) + BitVec.ofNat w b := by
    rw [← BitVec.ofNat_add, Nat.sub_add_cancel hle]
  rw [hsum, BitVec.add_sub_cancel, BitVec.toNat_ofNat, Nat.mod_eq_of_lt hlt]

/-- A wrapped distance of at most `d` between close counters is a true distance of at most `d`. -/
theorem wrap_sub_le_iff {a b d : ℕ} (hle : b ≤ a) (hlt : a - b < 2 ^ w) :
    (BitVec.ofNat w a - BitVec.ofNat w b).toNat ≤ d ↔ a ≤ b + d := by
  rw [wrap_sub_toNat hle hlt]
  omega

theorem wrap_succ (a : ℕ) : BitVec.ofNat w a + 1#w = BitVec.ofNat w (a + 1) := by
  rw [BitVec.ofNat_add]

/-- Two positions less than `n` apart with the same residue modulo `n` are the same position. -/
theorem mod_inj_of_window {n p q : ℕ} (hle : p ≤ q) (hlt : q < p + n) (h : p % n = q % n) :
    p = q := by
  have hsub : (q - p) % n = 0 := Nat.sub_mod_eq_zero_of_mod_eq h.symm
  rw [Nat.mod_eq_of_lt (by omega)] at hsub
  omega

/-- Positions in one window of `n` collide modulo `n` only when they are equal. -/
theorem mod_inj_in_window {n lo p q : ℕ} (hp : lo ≤ p) (hpn : p < lo + n) (hq : lo ≤ q)
    (hqn : q < lo + n) (h : p % n = q % n) : p = q := by
  rcases Nat.le_total p q with hpq | hqp
  · exact mod_inj_of_window hpq (by omega) h
  · exact (mod_inj_of_window hqp (by omega) h.symm).symm

end TiiSel4Vm.WrapCounter
