import Mathlib.RingTheory.Ideal.Operations
import Mathlib.Algebra.GroupWithZero.NonZeroDivisors
import Mathlib.GroupTheory.Congruence.Basic
import Mathlib.Tactic.LinearCombination

/-!
# Similarity of ideals

Two ideals of a commutative ring are similar when they agree up to scalars that
are not zero divisors.  Similarity is an equivalence and respects products, so
the classes multiply without any hypothesis on the ring.
-/

namespace Theory

open scoped nonZeroDivisors

/-- Ideals that agree up to scalars that are not zero divisors. -/
def SimilarIdeals {R : Type*} [CommRing R] (I J : Ideal R) : Prop :=
  ∃ x ∈ R⁰, ∃ y ∈ R⁰, Ideal.span {x} * I = Ideal.span {y} * J

namespace SimilarIdeals

variable {R : Type*} [CommRing R] {I J K L : Ideal R}

theorem refl (I : Ideal R) : SimilarIdeals I I :=
  ⟨1, one_mem _, 1, one_mem _, rfl⟩

theorem symm (sim : SimilarIdeals I J) : SimilarIdeals J I := by
  obtain ⟨x, hx, y, hy, eq⟩ := sim
  exact ⟨y, hy, x, hx, eq.symm⟩

theorem trans (left : SimilarIdeals I J) (right : SimilarIdeals J K) : SimilarIdeals I K := by
  obtain ⟨x, hx, y, hy, eq⟩ := left
  obtain ⟨z, hz, v, hv, eq'⟩ := right
  refine ⟨z * x, mul_mem hz hx, y * v, mul_mem hy hv, ?_⟩
  calc Ideal.span {z * x} * I
      = Ideal.span {z} * (Ideal.span {x} * I) := by
        rw [← mul_assoc, Ideal.span_singleton_mul_span_singleton]
    _ = Ideal.span {y} * (Ideal.span {z} * J) := by
        rw [eq, mul_left_comm]
    _ = Ideal.span {y * v} * K := by
        rw [eq', ← mul_assoc, Ideal.span_singleton_mul_span_singleton]

/-- Similarity respects products. -/
theorem mul (left : SimilarIdeals I J) (right : SimilarIdeals K L) :
    SimilarIdeals (I * K) (J * L) := by
  obtain ⟨x, hx, y, hy, eq⟩ := left
  obtain ⟨z, hz, v, hv, eq'⟩ := right
  refine ⟨x * z, mul_mem hx hz, y * v, mul_mem hy hv, ?_⟩
  rw [← Ideal.span_singleton_mul_span_singleton, ← Ideal.span_singleton_mul_span_singleton,
    mul_mul_mul_comm, eq, eq', mul_mul_mul_comm]

/-- Scaling by one element that is not a zero divisor stays in the class. -/
theorem of_eq_span_mul {x : R} (hx : x ∈ R⁰) (eq : I = Ideal.span {x} * J) :
    SimilarIdeals I J :=
  ⟨1, one_mem _, x, hx, by rw [Ideal.span_singleton_one, Ideal.one_eq_top.symm, one_mul, eq]⟩

end SimilarIdeals

/-- The classes of similar ideals. -/
def similarCon (R : Type*) [CommRing R] : Con (Ideal R) where
  r := SimilarIdeals
  iseqv := ⟨SimilarIdeals.refl, SimilarIdeals.symm, SimilarIdeals.trans⟩
  mul' := SimilarIdeals.mul

theorem coe_eq_iff_similar {R : Type*} [CommRing R] {I J : Ideal R} :
    (I : (similarCon R).Quotient) = J ↔ SimilarIdeals I J :=
  (similarCon R).eq

/-- Four combinations of `X` and `Y` whose rows and leading minors are unimodular
generate the same ideal as `X` and `Y`. -/
theorem span_four_eq_span_pair {R : Type*} [CommRing R] {X Y w s t u k l n : R}
    (rows : ∃ x y z, x * s + y * t + z * u = 1)
    (minors : ∃ x y z, x * w + y * (s * l - t * k) + z * (u * l - t * n) = 1) :
    Ideal.span {w * X, s * Y + k * X, t * Y + l * X, u * Y + n * X} =
      Ideal.span {X, Y} := by
  obtain ⟨x, y, z, row⟩ := rows
  obtain ⟨x', y', z', minor⟩ := minors
  apply le_antisymm
  · rw [Ideal.span_le]
    rintro v (rfl | rfl | rfl | rfl) <;> rw [SetLike.mem_coe, Ideal.mem_span_pair]
    · exact ⟨w, 0, by ring⟩
    · exact ⟨k, s, by ring⟩
    · exact ⟨l, t, by ring⟩
    · exact ⟨n, u, by ring⟩
  · set I := Ideal.span {w * X, s * Y + k * X, t * Y + l * X, u * Y + n * X}
    have g1 : w * X ∈ I := Ideal.subset_span (by simp)
    have g2 : s * Y + k * X ∈ I := Ideal.subset_span (by simp)
    have g3 : t * Y + l * X ∈ I := Ideal.subset_span (by simp)
    have g4 : u * Y + n * X ∈ I := Ideal.subset_span (by simp)
    -- the minors eliminate `Y`
    have m1 : (s * l - t * k) * X ∈ I := by
      have := I.sub_mem (I.mul_mem_left s g3) (I.mul_mem_left t g2)
      convert this using 1
      ring
    have m2 : (u * l - t * n) * X ∈ I := by
      have := I.sub_mem (I.mul_mem_left u g3) (I.mul_mem_left t g4)
      convert this using 1
      ring
    have hX : X ∈ I := by
      have := I.add_mem (I.add_mem (I.mul_mem_left x' g1) (I.mul_mem_left y' m1))
        (I.mul_mem_left z' m2)
      convert this using 1
      linear_combination -X * minor
    have hY : Y ∈ I := by
      have := I.sub_mem (I.add_mem (I.add_mem (I.mul_mem_left x g2) (I.mul_mem_left y g3))
        (I.mul_mem_left z g4)) (I.mul_mem_left (x * k + y * l + z * n) hX)
      convert this using 1
      linear_combination -Y * row
    rw [Ideal.span_le]
    rintro v (rfl | rfl)
    · exact hX
    · exact hY

end Theory
