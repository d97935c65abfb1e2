import Mathlib.Algebra.Order.Ring.Abs
import Mathlib.RingTheory.Coprime.Basic
import Mathlib.Tactic.IntervalCases
import Mathlib.Tactic.LinearCombination
import Mathlib.Tactic.Linarith
import Mathlib.Tactic.Ring

/-!
# Lattice points between two lines

Two lines through the origin have positive integer directions `(x, y)`, which is
primitive, and `(d, e)`.  Is there a lattice point between them whose first coordinate
is below the golden ratio times `x`?  Where the two slopes `x / y` and `d / e` have a
sum of at most one, the answer is the same for the second coordinates and `y`
(`exists_inStrip_iff`).

One direction is a comparison of slopes.  For the other take the point next to `(x, y)`
that comes first between the lines (`exists_adjacent`): unless it is in the strip of
`x` it is the least of all points between (`le_of_adjacent`), and so in the strip of
`y`.  But two adjacent points of which one coordinate is inside the strip and the other
outside are consecutive values of one quadratic form of discriminant five
(`eq_of_golden`), and these few violate the bound on the slopes.
-/

namespace Theory

/-- `|z|` is below the golden ratio times `|x|`. -/
def InStrip (x z : ℤ) : Prop := z ^ 2 < |z * x| + x ^ 2

/-- The point `(z, u)` lies between the lines through `(x, y)` and `(d, e)`. -/
def Between (x y d e z u : ℤ) : Prop := (y * z - x * u) * (e * z - d * u) < 0

variable {x y d e p q z u : ℤ}

/-! ## The strip -/

theorem InStrip.neg (inside : InStrip x z) : InStrip x (-z) := by
  unfold InStrip at *
  rwa [neg_sq, neg_mul, abs_neg]

theorem InStrip.of_neg (inside : InStrip (-x) z) : InStrip x z := by
  unfold InStrip at *
  rwa [mul_neg, abs_neg, neg_sq] at inside

theorem inStrip_iff_of_pos (hx : 0 < x) (hz : 0 < z) : InStrip x z ↔ z ^ 2 < z * x + x ^ 2 := by
  rw [InStrip, abs_of_pos (mul_pos hz hx)]

/-- A smaller quotient stays in the strip. -/
theorem strip_of_mul_le (hx : 0 < x) (hy : 0 < y) (hu : 0 < u) (slope : x * u ≤ y * z)
    (inside : z ^ 2 < z * x + x ^ 2) : u ^ 2 < u * y + y ^ 2 := by
  by_contra outside
  push Not at outside
  have above : y ≤ u := by
    by_contra below
    push Not at below
    nlinarith
  -- both sides times `x²`, where the point of the smaller quotient is outside as well
  have scaled : x ^ 2 * (u * y + y ^ 2) ≤ x ^ 2 * u ^ 2 :=
    mul_le_mul_of_nonneg_left outside (sq_nonneg x)
  have larger : x * y ≤ x * u := mul_le_mul_of_nonneg_left above hx.le
  have positive : 0 < x * u := mul_pos hx hu
  have step : 0 ≤ (y * z - x * u) * (y * z + x * u - x * y) :=
    mul_nonneg (by linarith) (by linarith)
  have contra : y ^ 2 * (z ^ 2 - z * x - x ^ 2) < 0 :=
    mul_neg_of_pos_of_neg (by positivity) (by linarith)
  linarith

/-- A point between lines of positive slope has coordinates of one sign. -/
theorem signs_of_between (hx : 0 < x) (hy : 0 < y) (hd : 0 < d) (he : 0 < e)
    (above : x * u < y * z) (below : e * z < d * u) : 0 < z ∧ 0 < u ∨ z < 0 ∧ u < 0 := by
  cases lt_or_ge 0 z with
  | inl hz =>
    have positive : 0 < d * u := (mul_pos he hz).trans below
    exact Or.inl ⟨hz, pos_of_mul_pos_right positive hd.le⟩
  | inr hz =>
    have negative : x * u < 0 := above.trans_le (mul_nonpos_of_nonneg_of_nonpos hy.le hz)
    have hu : u < 0 := neg_of_mul_neg_right negative hx.le
    have negative' : e * z < 0 := below.trans (mul_neg_of_pos_of_neg hd hu)
    exact Or.inr ⟨neg_of_mul_neg_right negative' he.le, hu⟩

theorem Between.signs (hx : 0 < x) (hy : 0 < y) (hd : 0 < d) (he : 0 < e)
    (between : Between x y d e z u) : 0 < z ∧ 0 < u ∨ z < 0 ∧ u < 0 := by
  cases mul_neg_iff.mp between with
  | inl left => exact signs_of_between hx hy hd he (by linarith) (by linarith)
  | inr right =>
    have above : y * z < x * u := by linarith
    have below : d * u < e * z := by linarith
    exact (signs_of_between hy hx he hd above below).imp And.symm And.symm

theorem Between.neg (between : Between x y d e z u) : Between x y d e (-z) (-u) := by
  unfold Between at *
  linarith

theorem Between.swap (between : Between x y d e z u) : Between y x e d u z := by
  unfold Between at *
  linarith

theorem between_swap_iff : Between y x e d u z ↔ Between x y d e z u :=
  ⟨Between.swap, Between.swap⟩

/-- A positive point between the lines has its first coordinate in the strip of `x`. -/
def StripPoint (x y d e : ℤ) : Prop :=
  ∃ z u, 0 < z ∧ 0 < u ∧ Between x y d e z u ∧ z ^ 2 < z * x + x ^ 2

/-- Points between the lines and in the strip may be taken positive. -/
theorem exists_inStrip_iff_pos (hx : 0 < x) (hy : 0 < y) (hd : 0 < d) (he : 0 < e) :
    (∃ z u, Between x y d e z u ∧ InStrip x z) ↔ StripPoint x y d e := by
  refine ⟨fun found => ?_, fun found => ?_⟩
  · obtain ⟨z, u, between, inside⟩ := found
    cases between.signs hx hy hd he with
    | inl positive =>
      exact ⟨z, u, positive.1, positive.2, between, (inStrip_iff_of_pos hx positive.1).mp inside⟩
    | inr negative =>
      have hz : 0 < -z := neg_pos.mpr negative.1
      have hu : 0 < -u := neg_pos.mpr negative.2
      exact ⟨-z, -u, hz, hu, between.neg, (inStrip_iff_of_pos hx hz).mp inside.neg⟩
  · obtain ⟨z, u, hz, -, between, inside⟩ := found
    exact ⟨z, u, between, (inStrip_iff_of_pos hx hz).mpr inside⟩

/-! ## Adjacent points -/

/-- Next to a primitive direction there is a first point between the lines. -/
theorem exists_adjacent (coprime : IsCoprime x y) (apart : x * e < y * d) :
    ∃ p q, y * p - x * q = 1 ∧ e * p - d * q < 0 ∧ 0 ≤ e * (p - x) - d * (q - y) := by
  obtain ⟨a, b, bezout⟩ := coprime
  have gap : 0 < y * d - x * e := sub_pos.mpr apart
  have low := Int.emod_nonneg (e * b + d * a) gap.ne'
  have high := Int.emod_lt_of_pos (e * b + d * a) gap
  have split := Int.mul_ediv_add_emod (e * b + d * a) (y * d - x * e)
  generalize (e * b + d * a) / (y * d - x * e) = k at split
  refine ⟨b + (k + 1) * x, -a + (k + 1) * y, ?_, ?_, ?_⟩
  · linear_combination bezout
  · linarith
  · linarith

/-- It is the least point between the lines once its first coordinate exceeds `x`. -/
theorem le_of_adjacent (hx : 0 < x) (hy : 0 < y) (apart : x * e < y * d)
    (adjacent : y * p - x * q = 1) (first : 0 ≤ e * (p - x) - d * (q - y)) (beyond : x < p)
    (above : x * u < y * z) (below : e * z < d * u) : q ≤ u := by
  -- the coordinates of `(z, u)` in the basis of `(x, y)` and `(p - x, q - y)`
  have weight : 0 < y * z - x * u := sub_pos.mpr above
  have share : 0 < (p - x) * u - (q - y) * z := by
    have scaled : ((p - x) * u - (q - y) * z) * (y * d - x * e) =
        (y * z - x * u) * (e * (p - x) - d * (q - y)) + (d * u - e * z) := by
      linear_combination (d * u - e * z) * adjacent
    refine pos_of_mul_pos_left ?_ (sub_pos.mpr apart).le
    rw [scaled]
    have := mul_nonneg weight.le first
    linarith
  have coordinate : u = ((p - x) * u - (q - y) * z) * y + (y * z - x * u) * (q - y) := by
    linear_combination (-u) * adjacent
  have rises : 0 ≤ q - y := by
    have scaled : 0 ≤ x * (q - y) := by
      have : y * 1 ≤ y * (p - x) := mul_le_mul_of_nonneg_left (by omega) hy.le
      linarith
    exact nonneg_of_mul_nonneg_right scaled hx
  have left : 1 * y ≤ ((p - x) * u - (q - y) * z) * y := mul_le_mul_of_nonneg_right share hy.le
  have right : 1 * (q - y) ≤ (y * z - x * u) * (q - y) := mul_le_mul_of_nonneg_right weight rises
  linarith

/-! ## The form of discriminant five -/

/-- A form of discriminant five whose outer coefficients differ in sign. -/
theorem eq_of_disc_five {a b c : ℤ} (disc : b ^ 2 - 4 * (a * c) = 5) (ha : 0 ≤ a) (hc : c < 0) :
    a * c = -1 ∧ (b = 1 ∨ b = -1) := by
  have product : a * c ≤ 0 := mul_nonpos_of_nonneg_of_nonpos ha hc.le
  have bound : |b| < 3 := abs_lt_of_sq_lt_sq (by linarith) (by norm_num)
  obtain ⟨low, high⟩ := abs_lt.mp bound
  interval_cases b <;> omega

/-- Adjacent points, one inside the strip and one outside of it. -/
theorem eq_of_golden (hy : 0 < y) (adjacent : y * p - x * q = 1)
    (outside : p * x + x ^ 2 ≤ p ^ 2) (inside : q ^ 2 < q * y + y ^ 2) :
    p = x + y ∧ q = x ∨ p = y ∧ q = x + y := by
  have disc : (2 * p * q - p * y - q * x - 2 * x * y) ^ 2 -
      4 * ((p ^ 2 - p * x - x ^ 2) * (q ^ 2 - q * y - y ^ 2)) = 5 := by
    linear_combination 5 * (y * p - x * q + 1) * adjacent
  obtain ⟨outer, middle⟩ := eq_of_disc_five disc (by linarith) (by linarith)
  have norm : q ^ 2 - q * y - y ^ 2 = -1 := by
    rcases Int.eq_one_or_neg_one_of_mul_eq_neg_one' outer with ⟨-, hq⟩ | ⟨-, hq⟩ <;> linarith
  cases middle with
  | inl one =>
    have product : p * q = 1 + q * x + x * y := by linarith
    have hq : q = x + y := by linear_combination (-q) * adjacent + y * product - x * norm
    have hp : y * p = y * y := by
      rw [hq] at norm adjacent
      linear_combination adjacent + norm
    exact Or.inr ⟨mul_left_cancel₀ hy.ne' hp, hq⟩
  | inr minus =>
    have product : p * q = q * x + x * y := by linarith
    have hq : q = x := by linear_combination (-q) * adjacent + y * product - x * norm
    have hp : y * p = y * (x + y) := by
      rw [hq] at norm adjacent
      linear_combination adjacent + norm
    exact Or.inl ⟨mul_left_cancel₀ hy.ne' hp, hq⟩

/-! ## Both strips -/

/-- From which side a point lies between the lines. -/
theorem Between.sides (hx : 0 < x) (hd : 0 < d) (hz : 0 < z) (apart : x * e < y * d)
    (between : Between x y d e z u) : x * u < y * z ∧ e * z < d * u := by
  cases mul_neg_iff.mp between with
  | inl left => exact ⟨by linarith, by linarith⟩
  | inr right =>
    have first : d * (y * z) < d * (x * u) := mul_lt_mul_of_pos_left (by linarith) hd
    have second : x * (d * u) < x * (e * z) := mul_lt_mul_of_pos_left (by linarith) hx
    have third : x * e * z < y * d * z := mul_lt_mul_of_pos_right apart hz
    linarith

/-- Where the strip of `y` has a point between the lines and that of `x` has none, there
are two candidates for the first adjacent point. -/
theorem exists_golden (hx : 0 < x) (hy : 0 < y) (hd : 0 < d) (he : 0 < e)
    (coprime : IsCoprime x y) (apart : x * e < y * d) (point : StripPoint y x e d)
    (pointless : ¬ StripPoint x y d e) :
    ∃ p q, e * p - d * q < 0 ∧ 0 ≤ e * (p - x) - d * (q - y) ∧ x < p ∧
      (p = x + y ∧ q = x ∨ p = y ∧ q = x + y) := by
  obtain ⟨u, z, -, hz, between, inside⟩ := point
  obtain ⟨above, below⟩ := between.swap.sides hx hd hz apart
  obtain ⟨p, q, adjacent, under, first⟩ := exists_adjacent coprime apart
  have gap : 0 < y * d - x * e := sub_pos.mpr apart
  have hq : 0 < q := by
    have scaled : q * (y * d - x * e) = e + y * (d * q - e * p) := by
      linear_combination e * adjacent
    refine pos_of_mul_pos_left ?_ gap.le
    rw [scaled]
    have := mul_pos hy (neg_sub (e * p) (d * q) ▸ neg_pos.mpr under)
    linarith
  have hp : 0 < p := by
    refine pos_of_mul_pos_right ?_ hy.le
    have := mul_pos hx hq
    linarith
  have outside : p * x + x ^ 2 ≤ p ^ 2 := by
    by_contra inside
    have between : Between x y d e p q := mul_neg_of_pos_of_neg (by linarith) under
    exact pointless ⟨p, q, hp, hq, between, not_le.mp inside⟩
  have beyond : x < p := by
    refine lt_of_mul_lt_mul_left ?_ hp.le
    have := pow_pos hx 2
    linarith
  have least : q ≤ u := le_of_adjacent hx hy apart adjacent first beyond above below
  have inside' : q ^ 2 < q * y + y ^ 2 :=
    strip_of_mul_le hy hy hq (mul_le_mul_of_nonneg_left least hy.le) inside
  exact ⟨p, q, under, first, beyond, eq_of_golden hy adjacent outside inside'⟩

/-- The strip of the coordinate that is smaller in proportion has its points in the
other strip as well. -/
theorem StripPoint.swap (hx : 0 < x) (hy : 0 < y) (hd : 0 < d) (apart : x * e < y * d)
    (point : StripPoint x y d e) : StripPoint y x e d := by
  obtain ⟨z, u, hz, hu, between, inside⟩ := point
  have above := (between.sides hx hd hz apart).1
  exact ⟨u, z, hu, hz, between.swap, strip_of_mul_le hx hy hu above.le inside⟩

/-- From the strip of `y` to that of `x`, when the slope of the other line is larger. -/
theorem StripPoint.of_swap_of_lt (hx : 0 < x) (hy : 0 < y) (hd : 0 < d) (he : 0 < e)
    (coprime : IsCoprime x y) (apart : x * e < y * d) (slopes : x * e + d * y ≤ y * e)
    (point : StripPoint y x e d) : StripPoint x y d e := by
  by_contra pointless
  obtain ⟨p, q, under, -, -, golden⟩ := exists_golden hx hy hd he coprime apart point pointless
  have positive : 0 < x * e := mul_pos hx he
  cases golden with
  | inl least =>
    rw [least.1, least.2] at under
    have shorter : d < e := lt_of_mul_lt_mul_right (by linarith) hy.le
    have := mul_lt_mul_of_pos_right shorter hx
    have := mul_pos he hy
    linarith
  | inr next =>
    rw [next.1, next.2] at under
    have scaled : (x + y) * (x * e + d * y) ≤ (x + y) * (y * e) :=
      mul_le_mul_of_nonneg_left slopes (by linarith)
    have under' : y * (e * y - d * (x + y)) < 0 := mul_neg_of_pos_of_neg hy under
    have := mul_pos hx positive
    linarith

/-- From the strip of `x` to that of `y`, when the slope of the other line is smaller. -/
theorem StripPoint.swap_of_gt (hx : 0 < x) (hy : 0 < y) (hd : 0 < d) (he : 0 < e)
    (coprime : IsCoprime x y) (apart : y * d < x * e) (slopes : x * e + d * y ≤ y * e)
    (point : StripPoint x y d e) : StripPoint y x e d := by
  by_contra pointless
  obtain ⟨q, p, -, first, beyond, golden⟩ :=
    exists_golden hy hx he hd coprime.symm apart point pointless
  have positive : 0 < d * y := mul_pos hd hy
  cases golden with
  | inl least =>
    rw [least.1, least.2] at first
    have shorter : y ≤ x := le_of_mul_le_mul_left (by linarith) hd
    have := mul_le_mul_of_nonneg_right shorter he.le
    linarith
  | inr next =>
    rw [next.1] at beyond
    have shorter : x < y := lt_of_mul_lt_mul_right (by linarith) he.le
    linarith

/-- Nothing lies between a line and itself. -/
theorem not_stripPoint_of_eq (hy : 0 < y) (he : 0 < e) (same : x * e = y * d) :
    ¬ StripPoint x y d e := by
  intro point
  obtain ⟨z, u, -, -, between, -⟩ := point
  have square : e * y * ((y * z - x * u) * (e * z - d * u)) = (y * (e * z - d * u)) ^ 2 := by
    linear_combination (-(y * u * (e * z - d * u))) * same
  have negative := mul_neg_of_pos_of_neg (mul_pos he hy) between
  rw [square] at negative
  exact absurd negative (not_lt.mpr (sq_nonneg _))

/-- The two strips have points between the lines together. -/
theorem exists_inStrip_iff (hx : 0 < x) (hy : 0 < y) (hd : 0 < d) (he : 0 < e)
    (coprime : IsCoprime x y) (slopes : x * e + d * y ≤ y * e) :
    (∃ z u, Between x y d e z u ∧ InStrip x z) ↔ ∃ u z, Between y x e d u z ∧ InStrip y u := by
  rw [exists_inStrip_iff_pos hx hy hd he, exists_inStrip_iff_pos hy hx he hd]
  rcases lt_trichotomy (x * e) (y * d) with apart | same | apart
  · exact ⟨StripPoint.swap hx hy hd apart,
      StripPoint.of_swap_of_lt hx hy hd he coprime apart slopes⟩
  · exact iff_of_false (not_stripPoint_of_eq hy he same) (not_stripPoint_of_eq hx hd same.symm)
  · exact ⟨StripPoint.swap_of_gt hx hy hd he coprime apart slopes,
      StripPoint.swap hy hx he apart⟩

end Theory
