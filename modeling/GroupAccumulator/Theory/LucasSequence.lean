import Mathlib.Algebra.CharP.Algebra
import Mathlib.Algebra.QuadraticAlgebra.Basic
import Mathlib.FieldTheory.Finite.Basic
import Mathlib.Tactic.LinearCombination

/-!
# Lucas sequences

The sequences `U` and `V` with parameters `P` and `Q`, over a commutative ring.  They
are the coordinate and the trace of the powers of a root `ω` of `x² - P x + Q`, from
which the doubling rules follow.

Modulo an odd prime for which `D = P² - 4 Q` is no square, the `p`-th power of `ω` is
its conjugate (`root_pow_prime`), so the sequences at `p + 1` are known.
-/

namespace Theory

variable {R : Type*} [CommRing R]

/-! ## The sequences -/

def lucasU (P Q : R) : ℕ → R
  | 0 => 0
  | 1 => 1
  | k + 2 => P * lucasU P Q (k + 1) - Q * lucasU P Q k

def lucasV (P Q : R) : ℕ → R
  | 0 => 2
  | 1 => P
  | k + 2 => P * lucasV P Q (k + 1) - Q * lucasV P Q k

theorem map_lucasU {S : Type*} [CommRing S] (φ : R →+* S) (P Q : R) (k : ℕ) :
    φ (lucasU P Q k) = lucasU (φ P) (φ Q) k := by
  induction k using Nat.twoStepInduction with
  | zero => exact map_zero φ
  | one => exact map_one φ
  | more k ih ih' => rw [lucasU, lucasU, map_sub, map_mul, map_mul, ih, ih']

theorem map_lucasV {S : Type*} [CommRing S] (φ : R →+* S) (P Q : R) (k : ℕ) :
    φ (lucasV P Q k) = lucasV (φ P) (φ Q) k := by
  induction k using Nat.twoStepInduction with
  | zero => exact map_ofNat φ 2
  | one => rfl
  | more k ih ih' => rw [lucasV, lucasV, map_sub, map_mul, map_mul, ih, ih']

/-! ## Powers of a root -/

/-- The ring with a root `ω` of `x² - P x + Q` adjoined. -/
abbrev LucasRing (P Q : R) : Type _ := QuadraticAlgebra R (-Q) P

open QuadraticAlgebra

variable (P Q : R)

/-- The root. -/
abbrev root : LucasRing P Q := QuadraticAlgebra.omega

theorem root_sq : root P Q ^ 2 = P • root P Q - QuadraticAlgebra.C Q := by
  rw [sq, omega_mul_omega_eq_mk]
  ext <;> simp

/-- `2 ω - P`, a square root of the discriminant. -/
def discriminantRoot : LucasRing P Q := 2 * root P Q - QuadraticAlgebra.C P

theorem discriminantRoot_sq :
    discriminantRoot P Q ^ 2 = QuadraticAlgebra.C (P ^ 2 - 4 * Q) := by
  ext <;> simp [discriminantRoot, sq] <;> ring

/-- The powers of the root satisfy the recurrence. -/
theorem root_pow_add_two (k : ℕ) :
    root P Q ^ (k + 2) = P • root P Q ^ (k + 1) - Q • root P Q ^ k := by
  rw [pow_add, root_sq, pow_succ, mul_sub, mul_C_eq_smul, mul_smul_comm]

theorem norm_root : QuadraticAlgebra.norm (root P Q) = Q := by
  simp [norm_def]

theorem norm_root_pow (k : ℕ) : QuadraticAlgebra.norm (root P Q ^ k) = Q ^ k := by
  rw [map_pow, norm_root]

theorem root_pow_im (k : ℕ) : (root P Q ^ k).im = lucasU P Q k := by
  induction k using Nat.twoStepInduction with
  | zero => rfl
  | one => rw [pow_one]; rfl
  | more k ih ih' =>
    rw [root_pow_add_two, im_sub, im_smul, im_smul, ih, ih', lucasU]
    rfl

theorem root_pow_trace (k : ℕ) : trace (root P Q ^ k) = lucasV P Q k := by
  induction k using Nat.twoStepInduction with
  | zero => rw [pow_zero, trace_one, lucasV]
  | one => rw [pow_one, trace_omega, lucasV]
  | more k ih ih' =>
    rw [root_pow_add_two, map_sub, map_smul, map_smul, ih, ih', lucasV]
    rfl

/-! ## Doubling -/

theorem lucasU_two_mul (k : ℕ) : lucasU P Q (2 * k) = lucasU P Q k * lucasV P Q k := by
  rw [← root_pow_im, ← root_pow_im, ← root_pow_trace, mul_comm 2, pow_mul, sq, im_mul, trace_def]
  ring

theorem lucasV_two_mul (k : ℕ) : lucasV P Q (2 * k) = lucasV P Q k ^ 2 - 2 * Q ^ k := by
  rw [← root_pow_trace, ← root_pow_trace, ← norm_root_pow P Q k, mul_comm 2, pow_mul,
    sq (root P Q ^ k), trace_def, trace_def, norm_def, re_mul, im_mul]
  ring

theorem two_mul_lucasU_succ (k : ℕ) :
    2 * lucasU P Q (k + 1) = P * lucasU P Q k + lucasV P Q k := by
  rw [← root_pow_im, ← root_pow_im, ← root_pow_trace, pow_succ, im_mul, trace_def, omega_re,
    omega_im]
  ring

theorem two_mul_lucasV_succ (k : ℕ) :
    2 * lucasV P Q (k + 1) = (P ^ 2 - 4 * Q) * lucasU P Q k + P * lucasV P Q k := by
  rw [← root_pow_im, ← root_pow_trace, ← root_pow_trace, pow_succ, trace_def, trace_def, im_mul,
    re_mul, omega_re, omega_im]
  ring

/-! ## Prime moduli -/

section

variable {p : ℕ} [Fact p.Prime] (P Q : ZMod p)

theorem charP_lucasRing : CharP (LucasRing P Q) p :=
  charP_of_injective_algebraMap (algebraMap_injective (a := -Q) (b := P)) p

theorem C_pow_prime (r : ZMod p) : (QuadraticAlgebra.C r : LucasRing P Q) ^ p = .C r := by
  rw [← C_pow, ZMod.pow_card]

/-- Where `D` is no square the Frobenius changes the sign of its root. -/
theorem discriminantRoot_pow_prime (odd : p ≠ 2)
    (nonresidue : (P ^ 2 - 4 * Q) ^ (p / 2) = -1) :
    discriminantRoot P Q ^ p = -discriminantRoot P Q := by
  have half : 2 * (p / 2) + 1 = p := by
    have prime : p.Prime := Fact.out
    have := prime.eq_two_or_odd
    omega
  calc discriminantRoot P Q ^ p
      = (discriminantRoot P Q ^ 2) ^ (p / 2) * discriminantRoot P Q := by
        rw [← pow_mul, ← pow_succ, half]
    _ = -discriminantRoot P Q := by
        rw [discriminantRoot_sq, ← C_pow, nonresidue, C_neg, C_one, neg_one_mul]

/-- So it conjugates the root. -/
theorem root_pow_prime (odd : p ≠ 2) (nonresidue : (P ^ 2 - 4 * Q) ^ (p / 2) = -1) :
    root P Q ^ p = star (root P Q) := by
  have prime : p.Prime := Fact.out
  have charP := charP_lucasRing P Q
  have two : (2 : LucasRing P Q) = QuadraticAlgebra.C 2 := rfl
  have twice : 2 * root P Q ^ p = 2 * star (root P Q) := by
    calc 2 * root P Q ^ p = (2 * root P Q) ^ p := by rw [mul_pow, two, C_pow_prime]
      _ = (QuadraticAlgebra.C P + discriminantRoot P Q) ^ p := by
          rw [discriminantRoot, add_sub_cancel]
      _ = QuadraticAlgebra.C P - discriminantRoot P Q := by
          rw [add_pow_char, C_pow_prime, discriminantRoot_pow_prime P Q odd nonresidue,
            sub_eq_add_neg]
      _ = 2 * star (root P Q) := by
          ext
          · simp [discriminantRoot]
            ring
          · simp [discriminantRoot]
  have nonzero : (2 : ZMod p) ≠ 0 := by
    intro zero
    have divides := (ZMod.natCast_eq_zero_iff 2 p).mp (by exact_mod_cast zero)
    exact odd ((Nat.prime_dvd_prime_iff_eq prime Nat.prime_two).mp divides)
  have inverse : (QuadraticAlgebra.C 2⁻¹ : LucasRing P Q) * 2 = 1 := by
    rw [two, ← C_mul, inv_mul_cancel₀ nonzero, C_one]
  calc root P Q ^ p = QuadraticAlgebra.C 2⁻¹ * 2 * root P Q ^ p := by rw [inverse, one_mul]
    _ = QuadraticAlgebra.C 2⁻¹ * 2 * star (root P Q) := by rw [mul_assoc, twice, mul_assoc]
    _ = star (root P Q) := by rw [inverse, one_mul]

/-- One step further the power is the norm. -/
theorem root_pow_prime_succ (odd : p ≠ 2) (nonresidue : (P ^ 2 - 4 * Q) ^ (p / 2) = -1) :
    root P Q ^ (p + 1) = QuadraticAlgebra.C Q := by
  rw [pow_succ, root_pow_prime P Q odd nonresidue, mul_comm, C_eq_algebraMap,
    ← algebraMap_norm_eq_mul_star, norm_root]

theorem lucasU_prime_succ (odd : p ≠ 2) (nonresidue : (P ^ 2 - 4 * Q) ^ (p / 2) = -1) :
    lucasU P Q (p + 1) = 0 := by
  rw [← root_pow_im, root_pow_prime_succ P Q odd nonresidue, im_C]

theorem lucasV_prime_succ (odd : p ≠ 2) (nonresidue : (P ^ 2 - 4 * Q) ^ (p / 2) = -1) :
    lucasV P Q (p + 1) = 2 * Q := by
  rw [← root_pow_trace, root_pow_prime_succ P Q odd nonresidue, trace_def, re_C, im_C, mul_zero,
    add_zero]

end

end Theory
