import Mathlib.Data.ZMod.Basic
import Mathlib.RingTheory.Coprime.Lemmas
import Mathlib.GroupTheory.QuotientGroup.Defs
import Mathlib.Tactic.LinearCombination

/-!
# Units modulo an integer, up to sign

The units modulo `N` divided by `{1, -1}`.  `Represents x q` says that the class
of the integer `x` is `q`; two integers represent one class exactly when they are
congruent up to sign, and for odd `N` every class has exactly one representative
in the lower half of the residues.
-/

namespace Theory

/-- The subgroup `{1, -1}`. -/
def signs (N : ℤ) : Subgroup (ZMod N.natAbs)ˣ where
  carrier := {1, -1}
  one_mem' := Or.inl rfl
  mul_mem' := by
    rintro u v (rfl | rfl) (rfl | rfl)
    · exact Or.inl (one_mul 1)
    · exact Or.inr (one_mul (-1))
    · exact Or.inr (mul_one (-1))
    · exact Or.inl ((neg_mul_neg _ _).trans (one_mul 1))
  inv_mem' := by
    rintro u (rfl | rfl)
    · exact Or.inl inv_one
    · exact Or.inr inv_neg_one

/-- The units modulo `N` divided by `{1, -1}`. -/
abbrev UnitsUpToSign (N : ℤ) : Type := (ZMod N.natAbs)ˣ ⧸ signs N

variable {N x y : ℤ} {q r : UnitsUpToSign N}

/-- Equality up to sign modulo `N`. -/
def SameUpToSign (N x y : ℤ) : Prop := N ∣ x - y ∨ N ∣ x + y

theorem SameUpToSign.refl (N x : ℤ) : SameUpToSign N x x := Or.inl (by simp)

theorem SameUpToSign.symm (same : SameUpToSign N x y) : SameUpToSign N y x := by
  cases same with
  | inl same => exact Or.inl ((dvd_sub_comm).mp same)
  | inr same => exact Or.inr (by rwa [add_comm])

theorem SameUpToSign.trans {z : ℤ} (first : SameUpToSign N x y) (second : SameUpToSign N y z) :
    SameUpToSign N x z := by
  rcases first with ⟨k, hk⟩ | ⟨k, hk⟩ <;> rcases second with ⟨m, hm⟩ | ⟨m, hm⟩
  · exact Or.inl ⟨k + m, by linear_combination hk + hm⟩
  · exact Or.inr ⟨k + m, by linear_combination hk + hm⟩
  · exact Or.inr ⟨k - m, by linear_combination hk - hm⟩
  · exact Or.inl ⟨k - m, by linear_combination hk - hm⟩

/-- Coprimality to the modulus does not depend on the representative. -/
theorem SameUpToSign.isCoprime (same : SameUpToSign N x y) (coprime : IsCoprime x N) :
    IsCoprime y N := by
  obtain ⟨a, b, bez⟩ := coprime
  rcases same with ⟨k, hk⟩ | ⟨k, hk⟩
  · exact ⟨a, b + a * k, by linear_combination bez - a * hk⟩
  · exact ⟨-a, b + a * k, by linear_combination bez - a * hk⟩

/-- The lower half of the residues holds one of each pair `x`, `-x`. -/
theorem SameUpToSign.eq (same : SameUpToSign N x y) (hx : 0 ≤ x ∧ x ≤ N / 2)
    (hy : 0 ≤ y ∧ y ≤ N / 2) (odd : N % 2 = 1) : x = y := by
  have smaller {z : ℤ} (divides : N ∣ z) (low : -N < z) (high : z < N) : z = 0 := by
    exact Int.eq_zero_of_abs_lt_dvd divides (abs_lt.mpr ⟨low, high⟩)
  cases same with
  | inl same =>
    have := smaller same (by omega) (by omega)
    omega
  | inr same =>
    have := smaller same (by omega) (by omega)
    omega

/-- The representative of `x` or of `-x` in the lower half. -/
def fold (N x : ℤ) : ℤ := if N / 2 < x % N then N - x % N else x % N

theorem same_fold (N x : ℤ) : SameUpToSign N x (fold N x) := by
  have split := Int.emod_add_mul_ediv x N
  unfold fold
  split
  · exact Or.inr ⟨x / N + 1, by linear_combination -split⟩
  · exact Or.inl ⟨x / N, by linear_combination -split⟩

theorem fold_mem (positive : 0 < N) (x : ℤ) : 0 ≤ fold N x ∧ fold N x ≤ N / 2 := by
  have low := Int.emod_nonneg x positive.ne'
  have high := Int.emod_lt_of_pos x positive
  unfold fold
  split <;> omega

/-- Numbers have one fold exactly when they agree up to sign. -/
theorem fold_eq_fold_iff (odd : N % 2 = 1) (positive : 0 < N) :
    fold N x = fold N y ↔ SameUpToSign N x y := by
  constructor
  · intro eq
    exact (same_fold N x).trans (eq ▸ (same_fold N y).symm)
  · intro same
    exact ((same_fold N x).symm.trans (same.trans (same_fold N y))).eq (fold_mem positive x)
      (fold_mem positive y) odd

/-- A number coprime to the modulus is not zero. -/
theorem one_le_of_isCoprime (large : 2 < N) (nonneg : 0 ≤ x) (coprime : IsCoprime x N) :
    1 ≤ x := by
  by_contra below
  obtain rfl : x = 0 := by omega
  have unit := isCoprime_zero_left.mp coprime
  rcases Int.isUnit_iff.mp unit with rfl | rfl <;> omega

/-! ## Classes -/

/-- The class of `x` is `q`. -/
def Represents (x : ℤ) (q : UnitsUpToSign N) : Prop :=
  ∃ u : (ZMod N.natAbs)ˣ, (u : ZMod N.natAbs) = (x : ZMod N.natAbs) ∧ (u : UnitsUpToSign N) = q

theorem cast_eq_cast_iff : (x : ZMod N.natAbs) = (y : ZMod N.natAbs) ↔ N ∣ x - y := by
  rw [← sub_eq_zero, ← Int.cast_sub, ZMod.intCast_zmod_eq_zero_iff_dvd, Int.natAbs_dvd]

theorem cast_eq_neg_cast_iff : (x : ZMod N.natAbs) = -(y : ZMod N.natAbs) ↔ N ∣ x + y := by
  rw [← Int.cast_neg, cast_eq_cast_iff, sub_neg_eq_add]

/-- Two units are in one class when they agree up to sign. -/
theorem mk_eq_mk_iff {u v : (ZMod N.natAbs)ˣ} :
    (u : UnitsUpToSign N) = (v : UnitsUpToSign N) ↔ u = v ∨ u = -v := by
  rw [QuotientGroup.eq]
  constructor
  · rintro (one | minus)
    · exact Or.inl (inv_mul_eq_one.mp one)
    · right
      rw [inv_mul_eq_iff_eq_mul.mp minus, mul_neg_one, neg_neg]
  · rintro (rfl | rfl)
    · exact Or.inl (inv_mul_cancel u)
    · right
      rw [inv_neg, neg_mul, inv_mul_cancel]
      rfl

theorem exists_represents (coprime : IsCoprime x N) : ∃ q : UnitsUpToSign N, Represents x q := by
  obtain ⟨a, b, bez⟩ := coprime
  have inverse : (x : ZMod N.natAbs) * (a : ZMod N.natAbs) = 1 := by
    rw [← Int.cast_mul, ← Int.cast_one, cast_eq_cast_iff]
    exact ⟨-b, by linear_combination bez⟩
  exact ⟨(Units.mkOfMulEqOne _ _ inverse : (ZMod N.natAbs)ˣ), _, rfl, rfl⟩

theorem Represents.isCoprime (represents : Represents x q) : IsCoprime x N := by
  obtain ⟨u, value, -⟩ := represents
  obtain ⟨y, hy⟩ := ZMod.intCast_surjective (u⁻¹ : (ZMod N.natAbs)ˣ).val
  have inverse : N ∣ x * y - 1 := by
    rw [← cast_eq_cast_iff, Int.cast_mul, ← value, hy, Units.mul_inv, Int.cast_one]
  obtain ⟨k, hk⟩ := inverse
  exact ⟨y, -k, by linear_combination hk⟩

theorem Represents.of_same (represents : Represents x q) (same : SameUpToSign N x y) :
    Represents y q := by
  obtain ⟨u, value, rfl⟩ := represents
  cases same with
  | inl same => exact ⟨u, value.trans (cast_eq_cast_iff.mpr same), rfl⟩
  | inr same =>
    refine ⟨-u, ?_, mk_eq_mk_iff.mpr (Or.inr rfl)⟩
    rw [Units.val_neg, value, cast_eq_neg_cast_iff.mpr same, neg_neg]

theorem Represents.same (hx : Represents x q) (hy : Represents y q) : SameUpToSign N x y := by
  obtain ⟨u, hu, rfl⟩ := hx
  obtain ⟨v, hv, classes⟩ := hy
  rcases mk_eq_mk_iff.mp classes with rfl | rfl
  · exact Or.inl (cast_eq_cast_iff.mp (hu.symm.trans hv))
  · refine Or.inr (cast_eq_neg_cast_iff.mp ?_)
    rw [← hu, ← hv, Units.val_neg, neg_neg]

theorem Represents.unique (hq : Represents x q) (hr : Represents x r) : q = r := by
  obtain ⟨u, hu, rfl⟩ := hq
  obtain ⟨v, hv, rfl⟩ := hr
  rw [Units.ext (hu.trans hv.symm)]

theorem represents_one : Represents 1 (1 : UnitsUpToSign N) :=
  ⟨1, by rw [Units.val_one, Int.cast_one], rfl⟩

theorem Represents.mul (hx : Represents x q) (hy : Represents y r) :
    Represents (x * y) (q * r) := by
  obtain ⟨u, hu, rfl⟩ := hx
  obtain ⟨v, hv, rfl⟩ := hy
  exact ⟨u * v, by rw [Units.val_mul, hu, hv, Int.cast_mul], rfl⟩

theorem Represents.pow (hx : Represents x q) (n : ℕ) : Represents (x ^ n) (q ^ n) := by
  obtain ⟨u, hu, rfl⟩ := hx
  exact ⟨u ^ n, by rw [Units.val_pow_eq_pow_val, hu, Int.cast_pow], rfl⟩

/-- A modular inverse represents the inverse class. -/
theorem Represents.inv (hx : Represents x q) (inverse : N ∣ x * y - 1) : Represents y q⁻¹ := by
  obtain ⟨u, hu, rfl⟩ := hx
  have product : (x : ZMod N.natAbs) * (y : ZMod N.natAbs) = 1 := by
    rw [← Int.cast_mul, ← Int.cast_one]
    exact cast_eq_cast_iff.mpr inverse
  refine ⟨u⁻¹, ?_, rfl⟩
  calc ((u⁻¹ : (ZMod N.natAbs)ˣ) : ZMod N.natAbs)
      = (u⁻¹ : (ZMod N.natAbs)ˣ) * ((x : ZMod N.natAbs) * (y : ZMod N.natAbs)) := by
        rw [product, mul_one]
    _ = (y : ZMod N.natAbs) := by rw [← hu, ← mul_assoc, Units.inv_mul, one_mul]

/-- Every class has a representative in the lower half. -/
theorem exists_canonical (large : 2 < N) (q : UnitsUpToSign N) :
    ∃ x, 1 ≤ x ∧ x ≤ N / 2 ∧ Represents x q := by
  obtain ⟨u, rfl⟩ := QuotientGroup.mk_surjective q
  obtain ⟨t, ht⟩ := ZMod.intCast_surjective u.val
  have represents : Represents t (u : UnitsUpToSign N) := ⟨u, ht.symm, rfl⟩
  have folded := represents.of_same (same_fold N t)
  have positive : 0 < N := by omega
  obtain ⟨low, high⟩ := fold_mem positive t
  exact ⟨fold N t, one_le_of_isCoprime large low folded.isCoprime, high, folded⟩

end Theory
