import Mathlib.Data.Nat.Size
import Mathlib.Tactic.Ring

/-!
# Numbers in limbs

An array of `w` limbs of 64 bits, least significant limb first, as the number it
holds.  `limbCount` is how many limbs a number needs; comparing it with `k` is
comparing the number with `2 ^ (64 * k)` (`limbCount_le_iff`), which is all that is
used of it.
-/

namespace Theory

/-- An array of `w` limbs. -/
abbrev Limbs (w : ℕ) : Type := BitVec (64 * w)

namespace Limbs

variable {w : ℕ}

def limb (x : Limbs w) (i : ℕ) : BitVec 64 := x.extractLsb' (64 * i) 64

/-- The number the lowest `k` limbs hold. -/
def low (x : Limbs w) (k : ℕ) : ℕ := x.toNat % 2 ^ (64 * k)

/-- The array after the lowest `k` limbs are overwritten with those of `v`. -/
def write (x : Limbs w) (k v : ℕ) : Limbs w :=
  BitVec.ofNat (64 * w) (x.toNat / 2 ^ (64 * k) * 2 ^ (64 * k) + v % 2 ^ (64 * k))

/-- The position after the highest limb below `i` that is not zero. -/
def significant (x : Limbs w) : ℕ → ℕ
  | 0 => 0
  | i + 1 => if x.limb i ≠ 0 then i + 1 else significant x i

end Limbs

/-- The number of limbs of `n` without leading zeros. -/
def limbCount (n : ℕ) : ℕ := (n.size + 63) / 64

theorem limbCount_le_iff {n k : ℕ} : limbCount n ≤ k ↔ n < 2 ^ (64 * k) := by
  rw [← Nat.size_le]
  unfold limbCount
  omega

theorem lt_pow_limbCount (n : ℕ) : n < 2 ^ (64 * limbCount n) := limbCount_le_iff.mp le_rfl

theorem limbCount_mono {m n : ℕ} (le : m ≤ n) : limbCount m ≤ limbCount n :=
  limbCount_le_iff.mpr (le.trans_lt (lt_pow_limbCount n))

theorem limbCount_eq_zero_iff {n : ℕ} : limbCount n = 0 ↔ n = 0 := by
  rw [← Nat.le_zero, limbCount_le_iff, Nat.mul_zero, pow_zero, Nat.lt_one_iff]

/-- The highest limb counted is not zero. -/
theorem pow_le_of_lt_limbCount {n k : ℕ} (counted : k < limbCount n) : 2 ^ (64 * k) ≤ n := by
  by_contra small
  exact absurd (limbCount_le_iff.mpr (not_le.mp small)) (not_le.mpr counted)

/-- A quotient has as many limbs as the difference of the counts, and one more at most. -/
theorem div_lt_pow_limbCount {a b : ℕ} (ne : b ≠ 0) :
    a / b < 2 ^ (64 * (limbCount a - limbCount b + 1)) := by
  have counted : limbCount b ≠ 0 := limbCount_eq_zero_iff.not.mpr ne
  have low : 2 ^ (64 * (limbCount b - 1)) ≤ b := pow_le_of_lt_limbCount (by omega)
  apply Nat.div_lt_of_lt_mul
  calc a < 2 ^ (64 * limbCount a) := lt_pow_limbCount a
    _ ≤ 2 ^ (64 * (limbCount b - 1) + 64 * (limbCount a - limbCount b + 1)) :=
        Nat.pow_le_pow_right Nat.two_pos (by omega)
    _ ≤ b * 2 ^ (64 * (limbCount a - limbCount b + 1)) := by
        rw [pow_add]
        exact Nat.mul_le_mul_right _ low

/-- What fits a number of limbs fits more. -/
theorem lt_pow_of_limbs_le {n v w : ℕ} (le : v ≤ w) (fits : n < 2 ^ (64 * v)) :
    n < 2 ^ (64 * w) :=
  fits.trans_le (Nat.pow_le_pow_right Nat.two_pos (Nat.mul_le_mul_left 64 le))

namespace Limbs

variable {w : ℕ}

theorem limb_toNat (x : Limbs w) (i : ℕ) :
    (x.limb i).toNat = x.toNat / 2 ^ (64 * i) % 2 ^ 64 := by
  rw [limb, BitVec.extractLsb'_toNat, Nat.shiftRight_eq_div_pow]

/-- One limb more. -/
theorem low_succ (x : Limbs w) (i : ℕ) :
    x.low (i + 1) = x.low i + 2 ^ (64 * i) * (x.limb i).toNat := by
  rw [low, low, limb_toNat, mul_add, mul_one, pow_add, Nat.mod_mul]

theorem low_self (x : Limbs w) : x.low w = x.toNat := Nat.mod_eq_of_lt x.isLt

/-- The scan for the highest limb that is not zero finds the limb count. -/
theorem significant_eq (x : Limbs w) (i : ℕ) : x.significant i = limbCount (x.low i) := by
  induction i with
  | zero =>
    rw [low, Nat.mul_zero, pow_zero, Nat.mod_one]
    rfl
  | succ i ih =>
    have below : x.low i < 2 ^ (64 * i) := Nat.mod_lt _ (Nat.two_pow_pos _)
    rw [significant, low_succ]
    split
    next top =>
      have positive : 1 ≤ (x.limb i).toNat := by
        rw [Nat.one_le_iff_ne_zero]
        intro zero
        exact top (BitVec.eq_of_toNat_eq zero)
      have small := (x.limb i).isLt
      apply le_antisymm
      · by_contra fewer
        have bound := limbCount_le_iff.mp (Nat.le_of_lt_succ (not_le.mp fewer))
        have := Nat.le_mul_of_pos_right (2 ^ (64 * i)) positive
        omega
      · rw [limbCount_le_iff, mul_add, mul_one, pow_add]
        calc x.low i + 2 ^ (64 * i) * (x.limb i).toNat
            < 2 ^ (64 * i) * 1 + 2 ^ (64 * i) * (x.limb i).toNat := by omega
          _ = 2 ^ (64 * i) * (1 + (x.limb i).toNat) := by rw [mul_add]
          _ ≤ 2 ^ (64 * i) * 2 ^ 64 := Nat.mul_le_mul_left _ (by omega)
    next zero =>
      rw [not_not.mp zero, ih]
      rfl

end Limbs

end Theory
