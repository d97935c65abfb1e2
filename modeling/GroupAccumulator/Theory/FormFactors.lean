import GroupAccumulator.Theory.FormComposition
import Mathlib.Algebra.Squarefree.Basic

/-!
# Solving for a composition

`Factors f g h w s t u` splits the greatest common factor `w` off the leading
coefficients of two forms of one discriminant and off half the sum of their
middle coefficients.  A composition needs a `k` with `t k = h mod s` and
`u k = g.c mod s`.  Two linear congruences in a row provide it:

* `Factors.first_solvable`: `t u k = h u + s f.c mod s t` is solvable, because
  the right side is `t g.c` and the three cofactors are coprime;
* `Factors.second_solvable`: among its solutions `mu + v n`, one satisfies
  `t k = h mod s` as well;
* `exact_of_solved`: with that `k` the remaining divisions are exact;
* `Factors.composition`: and what they give is a `Composition`.
-/

namespace Theory.BinaryForm

variable {f g : BinaryForm} {h w s t u : ℤ}

/-- The common factor `w` with its cofactors, and half the difference `h`. -/
structure Factors (f g : BinaryForm) (h w s t u : ℤ) : Prop where
  left_a : f.a = w * s
  right_a : g.a = w * t
  mid : f.b + g.b = 2 * (w * u)
  diff : g.b - f.b = 2 * h
  ne_zero : w ≠ 0
  same_disc : f.disc = g.disc
  coprime : ∃ x y z : ℤ, x * s + y * t + z * u = 1

/-- The greatest common divisor of three integers divides them and is a
combination of them. -/
theorem gcd_split (a b c : ℤ) :
    (∃ s t u, a = Int.gcd (Int.gcd a b) c * s ∧ b = Int.gcd (Int.gcd a b) c * t ∧
      c = Int.gcd (Int.gcd a b) c * u) ∧
    ∃ x y z : ℤ, x * a + y * b + z * c = (Int.gcd (Int.gcd a b) c : ℤ) := by
  have common : (Int.gcd (Int.gcd a b) c : ℤ) ∣ (Int.gcd a b : ℤ) := Int.gcd_dvd_left ..
  obtain ⟨s, hs⟩ := common.trans (Int.gcd_dvd_left a b)
  obtain ⟨t, ht⟩ := common.trans (Int.gcd_dvd_right a b)
  obtain ⟨u, hu⟩ : (Int.gcd (Int.gcd a b) c : ℤ) ∣ c := Int.gcd_dvd_right ..
  refine ⟨⟨s, t, u, hs, ht, hu⟩, ?_⟩
  have inner := Int.gcd_eq_gcd_ab a b
  have outer := Int.gcd_eq_gcd_ab (Int.gcd a b) c
  refine ⟨Int.gcdA a b * Int.gcdA (Int.gcd a b) c, Int.gcdB a b * Int.gcdA (Int.gcd a b) c,
    Int.gcdB (Int.gcd a b) c, ?_⟩
  rw [outer]
  linear_combination (-Int.gcdA (Int.gcd a b) c) * inner

/-- A common factor of the coefficients divides the discriminant twice. -/
theorem primitive_of_squarefree (squarefree : Squarefree (-f.disc)) : f.Primitive := by
  obtain ⟨⟨a, b, c, ha, hb, hc⟩, x, y, z, combination⟩ := gcd_split f.a f.b f.c
  generalize (Int.gcd (Int.gcd f.a f.b) f.c : ℤ) = e at *
  have twice : e * e ∣ -f.disc := by
    refine ⟨4 * a * c - b ^ 2, ?_⟩
    unfold disc
    rw [ha, hb, hc]
    ring
  obtain ⟨i, inverse⟩ := (squarefree e twice).exists_right_inv
  exact ⟨x * i, y * i, z * i, by linear_combination i * combination + inverse⟩

theorem Factors.of_gcd {half : ℤ} (mid : f.b + g.b = 2 * half) (diff : g.b - f.b = 2 * h)
    (ne : f.a ≠ 0) (same : f.disc = g.disc) :
    ∃ s t u, Factors f g h (Int.gcd (Int.gcd f.a g.a) half) s t u ∧
      half = Int.gcd (Int.gcd f.a g.a) half * u := by
  obtain ⟨⟨s, t, u, hs, ht, hu⟩, x, y, z, combination⟩ := gcd_split f.a g.a half
  generalize (Int.gcd (Int.gcd f.a g.a) half : ℤ) = w at *
  have nonzero : w ≠ 0 := by
    rintro rfl
    exact ne (by rw [hs, zero_mul])
  refine ⟨s, t, u, ⟨hs, ht, hu ▸ mid, diff, nonzero, same, x, y, z, ?_⟩, hu⟩
  apply mul_left_cancel₀ nonzero
  linear_combination combination - x * hs - y * ht - z * hu

/-- The identity between the last coefficients behind both congruences. -/
theorem Factors.cross (fac : Factors f g h w s t u) : h * u + s * f.c = t * g.c := by
  have same := fac.same_disc
  unfold disc at same
  apply mul_left_cancel₀ fac.ne_zero
  have product : (f.b + g.b) * (g.b - f.b) = 4 * (w * t * g.c - w * s * f.c) := by
    rw [← fac.left_a, ← fac.right_a]
    linear_combination -same
  rw [fac.mid, fac.diff] at product
  linarith

variable {e u' v mu k l n : ℤ}

/-- The common factor of `s` and `u` is coprime to `t`. -/
theorem Factors.isCoprime_common (fac : Factors f g h w s t u) (hs : s = v * e)
    (hu : u = u' * e) : IsCoprime e t := by
  obtain ⟨x, y, z, unit⟩ := fac.coprime
  refine ⟨x * v + z * u', y, ?_⟩
  rw [hs, hu] at unit
  linear_combination unit

theorem Factors.first_solvable (fac : Factors f g h w s t u) :
    (Int.gcd (t * u) (s * t) : ℤ) ∣ h * u + s * f.c := by
  obtain ⟨v, hs⟩ : (Int.gcd u s : ℤ) ∣ s := Int.gcd_dvd_right ..
  obtain ⟨u', hu⟩ : (Int.gcd u s : ℤ) ∣ u := Int.gcd_dvd_left ..
  have inner : (Int.gcd u s : ℤ) ∣ t * g.c := by
    rw [← fac.cross]
    exact dvd_add (Dvd.dvd.mul_left ⟨u', hu⟩ h) (Dvd.dvd.mul_right ⟨v, hs⟩ f.c)
  rw [mul_comm] at hs hu
  have last := (fac.isCoprime_common hs hu).dvd_of_dvd_mul_left inner
  rw [fac.cross, mul_comm s t, Int.gcd_mul_left]
  push_cast
  exact mul_dvd_mul ((abs_dvd t t).mpr dvd_rfl) last

/-- The solutions of the first congruence repeat after the part of `s` that is
not shared with `u`. -/
theorem eq_mul_gcd_of_period (positive : 0 < t) (period : v * Int.gcd (t * u) (s * t) = s * t) :
    s = v * Int.gcd u s := by
  rw [mul_comm s t, Int.gcd_mul_left] at period
  push_cast at period
  rw [abs_of_pos positive] at period
  apply mul_left_cancel₀ positive.ne'
  linear_combination -period

theorem Factors.second_solvable (fac : Factors f g h w s t u) (nonzero : s ≠ 0)
    (hs : s = v * Int.gcd u s) (solved : s * t ∣ t * u * mu - (h * u + s * f.c)) (ht : t ≠ 0) :
    (Int.gcd (t * v) s : ℤ) ∣ h - t * mu := by
  obtain ⟨u', hu⟩ : (Int.gcd u s : ℤ) ∣ u := Int.gcd_dvd_left ..
  rw [mul_comm] at hu
  have common := fac.isCoprime_common hs hu
  have cross := fac.cross
  obtain ⟨x, y, bez⟩ : ∃ x y : ℤ, x * u + y * s = Int.gcd u s :=
    ⟨Int.gcdA u s, Int.gcdB u s, by linear_combination -Int.gcd_eq_gcd_ab u s⟩
  generalize (Int.gcd u s : ℤ) = e at *
  have ne : e ≠ 0 := by
    rintro rfl
    exact nonzero (by rw [hs, mul_zero])
  have apart : IsCoprime v u' := by
    refine ⟨y, x, mul_left_cancel₀ ne ?_⟩
    linear_combination bez - x * hu - y * hs
  obtain ⟨q, hq⟩ : s ∣ u * mu - g.c := by
    obtain ⟨q, hq⟩ := solved
    refine ⟨q, mul_left_cancel₀ ht ?_⟩
    linear_combination hq + cross
  have divides : v ∣ h - t * mu := by
    refine apart.dvd_of_dvd_mul_left ⟨-f.c - t * q, mul_left_cancel₀ ne ?_⟩
    linear_combination (-(h - t * mu)) * hu + cross - t * hq - (f.c + t * q) * hs
  have unit : Int.gcd t e = 1 := Int.isCoprime_iff_gcd_eq_one.mp common.symm
  rw [hs, mul_comm t v, Int.gcd_mul_left, unit, mul_one]
  exact Int.natAbs_dvd.mpr divides

/-- With a `k` that solves both congruences the remaining divisions are exact. -/
theorem exact_of_solved {c lambda : ℤ} (hs : s = v * Int.gcd u s)
    (solved : s * t ∣ t * u * mu - (h * u + s * c))
    (solved' : s ∣ t * v * lambda - (h - t * mu)) :
    ∃ l n, s * l = (mu + v * lambda) * t - h ∧
      s * t * n = t * u * (mu + v * lambda) - h * u - c * s := by
  obtain ⟨u', hu⟩ : (Int.gcd u s : ℤ) ∣ u := Int.gcd_dvd_left ..
  generalize (Int.gcd u s : ℤ) = e at *
  obtain ⟨q, hq⟩ := solved
  obtain ⟨r, hr⟩ := solved'
  refine ⟨r, q + u' * lambda, ?_, ?_⟩
  · linear_combination -hr
  · linear_combination (-1) * hq - t * v * lambda * hu + (t * u' * lambda) * hs

/-- The quotients make up a composition. -/
theorem Factors.composition (fac : Factors f g h w s t u) (nonzero : s ≠ 0) (ht : t ≠ 0)
    (hl : s * l = k * t - h) (hn : s * t * n = t * u * k - h * u - f.c * s) :
    Composition f g ⟨s * t, w * u - (k * t + l * s), k * l - w * n⟩ w s t u k l n := by
  have mid := fac.mid
  have diff := fac.diff
  refine ⟨fac.left_a, fac.right_a, rfl, mid, ?_, ?_, rfl, ?_, fac.coprime⟩
  · change w * u - (k * t + l * s) = f.b - 2 * (l * s)
    linarith
  · change w * u - (k * t + l * s) = g.b - 2 * (k * t)
    linarith
  · apply mul_left_cancel₀ nonzero
    apply mul_left_cancel₀ ht
    linear_combination (t * u) * hl - t * hn

end Theory.BinaryForm
