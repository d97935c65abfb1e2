import GroupAccumulator.Theory.FormReduction
import GroupAccumulator.Theory.GoldenStrip

/-!
# Zeros under reduction steps

A form of nonnegative discriminant is never reduced, and turns of it go on until the
last coefficient vanishes, if it does.  Whether it does is visible in the form: it has a
primitive zero `(x, y)` such that no value with the first coordinate in the strip of `x`
has the opposite sign of the last coefficient (`Narrow`).  In terms of the two slopes on
which the form vanishes: no fraction strictly between them has a denominator below the
golden ratio times the smaller one of their denominators.

A turn carries the strip over to the other coordinate (`narrow_turn_iff`).  With the
middle coefficient in its window and outer coefficients of one sign the two coordinates
are interchangeable (`narrow_swap_iff`).
-/

namespace Theory.BinaryForm

variable {f g : BinaryForm} {x y z u s : ℤ}

/-- The form with its variables exchanged. -/
def swap (f : BinaryForm) : BinaryForm := ⟨f.c, f.b, f.a⟩

/-- At the primitive zero `(x, y)` the form keeps the sign of its last coefficient all
over the strip of `x`. -/
structure NarrowAt (f : BinaryForm) (x y : ℤ) : Prop where
  coprime : IsCoprime x y
  zero : f.eval x y = 0
  signed : ∀ z u, InStrip x z → 0 ≤ f.c * f.eval z u

def Narrow (f : BinaryForm) : Prop := ∃ x y, f.NarrowAt x y

/-! ## Symmetries -/

theorem eval_swap (f : BinaryForm) (x y : ℤ) : f.swap.eval x y = f.eval y x := by
  unfold eval swap
  ring

theorem eval_opposite (f : BinaryForm) (x y : ℤ) : f.opposite.eval x y = f.eval x (-y) := by
  unfold eval opposite
  ring

theorem eval_neg (f : BinaryForm) (x y : ℤ) : f.eval (-x) (-y) = f.eval x y := by
  unfold eval
  ring

theorem eval_turn_swap (f : BinaryForm) (s x y : ℤ) :
    (f.turn s).swap.eval x y = f.eval (-x) (y + s * x) := by
  unfold eval swap turn
  ring

/-- The same with the coordinates carried over. -/
theorem eval_carried (f : BinaryForm) (s x y : ℤ) :
    (f.turn s).swap.eval (-x) (y + s * x) = f.eval x y := by
  unfold eval swap turn
  ring

theorem NarrowAt.neg (narrow : f.NarrowAt x y) : f.NarrowAt (-x) (-y) := by
  refine ⟨narrow.coprime.neg_neg, (f.eval_neg x y).trans narrow.zero, fun z u inside => ?_⟩
  rw [← eval_neg]
  exact narrow.signed _ _ inside.of_neg.neg

theorem NarrowAt.opposite (narrow : f.NarrowAt x y) : f.opposite.NarrowAt x (-y) := by
  refine ⟨narrow.coprime.neg_right, ?_, fun z u inside => ?_⟩
  · rw [eval_opposite, neg_neg]
    exact narrow.zero
  · rw [eval_opposite]
    exact narrow.signed _ _ inside

theorem opposite_opposite (f : BinaryForm) : f.opposite.opposite = f :=
  BinaryForm.ext rfl (neg_neg f.b) rfl

theorem Narrow.of_opposite (narrow : f.opposite.Narrow) : f.Narrow := by
  obtain ⟨x, y, narrow⟩ := narrow
  exact ⟨x, -y, f.opposite_opposite ▸ narrow.opposite⟩

/-- Neither coordinate of a zero vanishes when the outer coefficients do not. -/
theorem NarrowAt.ne_zero (narrow : f.NarrowAt x y) (ha : f.a ≠ 0) (hc : f.c ≠ 0) :
    x ≠ 0 ∧ y ≠ 0 := by
  have zero := narrow.zero
  have coprime := narrow.coprime
  unfold eval at zero
  refine ⟨fun hx => ?_, fun hy => ?_⟩
  · subst hx
    have square : f.c * y ^ 2 = 0 := by linarith
    have hy : y = 0 := pow_eq_zero_iff two_ne_zero |>.mp ((mul_eq_zero_iff_left hc).mp square)
    exact not_isCoprime_zero_zero (hy ▸ coprime)
  · subst hy
    have square : f.a * x ^ 2 = 0 := by linarith
    have hx : x = 0 := pow_eq_zero_iff two_ne_zero |>.mp ((mul_eq_zero_iff_left ha).mp square)
    exact not_isCoprime_zero_zero (hx ▸ coprime)

/-- Up to symmetry the zero is positive. -/
theorem Narrow.exists_pos (narrow : f.Narrow) (ha : f.a ≠ 0) (hc : f.c ≠ 0) :
    ∃ x y, 0 < x ∧ 0 < y ∧ (f.NarrowAt x y ∨ f.opposite.NarrowAt x y) := by
  obtain ⟨x, y, narrow⟩ := narrow
  obtain ⟨hx, hy⟩ := narrow.ne_zero ha hc
  cases hx.lt_or_gt with
  | inl hx =>
    cases hy.lt_or_gt with
    | inl hy => exact ⟨-x, -y, neg_pos.mpr hx, neg_pos.mpr hy, Or.inl narrow.neg⟩
    | inr hy => exact ⟨-x, y, neg_pos.mpr hx, hy, Or.inr (neg_neg y ▸ narrow.neg.opposite)⟩
  | inr hx =>
    cases hy.lt_or_gt with
    | inl hy => exact ⟨x, -y, hx, neg_pos.mpr hy, Or.inr narrow.opposite⟩
    | inr hy => exact ⟨x, y, hx, hy, Or.inl narrow⟩

/-! ## Turns -/

/-- Forms that take each other's values at carried coordinates share the zeros and strips. -/
theorem Narrow.of_carried (last : g.c = f.c)
    (zeros : ∀ x y, g.eval (-x) (y + s * x) = f.eval x y)
    (values : ∀ x y, g.eval x y = f.eval (-x) (y + s * x)) (narrow : f.Narrow) : g.Narrow := by
  obtain ⟨x, y, narrow⟩ := narrow
  refine ⟨-x, y + s * x, (narrow.coprime.add_mul_right_right s).neg_left, ?_,
    fun z u inside => ?_⟩
  · rw [zeros]
    exact narrow.zero
  · rw [last, values]
    exact narrow.signed _ _ inside.of_neg.neg

/-- A turn carries zeros and their strips over to the other coordinate. -/
theorem narrow_turn_iff : (f.turn s).swap.Narrow ↔ f.Narrow := by
  constructor
  · exact Narrow.of_carried rfl (fun x y => (eval_turn_swap f s x y).symm)
      fun x y => (eval_carried f s x y).symm
  · exact Narrow.of_carried rfl (eval_carried f s) (eval_turn_swap f s)

/-! ## Exchanging the coordinates -/

/-- A positive zero splits the form into two lines of positive slope. -/
theorem exists_lines (hx : 0 < x) (hy : 0 < y) (coprime : IsCoprime x y) (zero : f.eval x y = 0)
    (same : 0 < f.a * f.c) :
    ∃ σ d e : ℤ, |σ| = 1 ∧ 0 < d ∧ 0 < e ∧ f.a = σ * (y * e) ∧ f.c = σ * (x * d) ∧
      f.b = -σ * (x * e + d * y) := by
  unfold eval at zero
  obtain ⟨e, he⟩ : y ∣ f.a := by
    have divides : y ∣ f.a * x * x := ⟨-(f.b * x + f.c * y), by linear_combination zero⟩
    exact coprime.symm.dvd_of_dvd_mul_right (coprime.symm.dvd_of_dvd_mul_right divides)
  obtain ⟨d, hd⟩ : x ∣ f.c := by
    have divides : x ∣ f.c * y * y := ⟨-(f.a * x + f.b * y), by linear_combination zero⟩
    exact coprime.dvd_of_dvd_mul_right (coprime.dvd_of_dvd_mul_right divides)
  have middle : f.b = -(x * e + d * y) := by
    apply mul_left_cancel₀ (mul_pos hx hy).ne'
    rw [he, hd] at zero
    linear_combination zero
  have signs : 0 < e * d := by
    rw [he, hd] at same
    refine pos_of_mul_pos_right (?_ : 0 < y * x * (e * d)) (mul_pos hy hx).le
    linarith
  cases pos_and_pos_or_neg_and_neg_of_mul_pos signs with
  | inl pos => refine ⟨1, d, e, abs_one, pos.2, pos.1, ?_, ?_, ?_⟩ <;> linarith
  | inr neg =>
    have unit : |(-1 : ℤ)| = 1 := by rw [abs_neg, abs_one]
    refine ⟨-1, -d, -e, unit, neg_pos.mpr neg.2, neg_pos.mpr neg.1, ?_, ?_, ?_⟩ <;> linarith

/-- With the middle coefficient in its window the sign is kept in both strips or in
neither. -/
theorem signed_swap_iff (hx : 0 < x) (hy : 0 < y) (coprime : IsCoprime x y)
    (zero : f.eval x y = 0) (same : 0 < f.a * f.c) (window : |f.b| ≤ |f.a|) :
    (∀ z u, InStrip y z → 0 ≤ f.a * f.swap.eval z u) ↔
      ∀ z u, InStrip x z → 0 ≤ f.c * f.eval z u := by
  obtain ⟨σ, d, e, unit, hd, he, ha, hc, hb⟩ := exists_lines hx hy coprime zero same
  have square : σ * σ = 1 := by rw [← abs_mul_abs_self, unit, one_mul]
  have value (z u : ℤ) : σ * f.eval z u = (y * z - x * u) * (e * z - d * u) := by
    unfold eval
    rw [ha, hb, hc]
    linear_combination ((y * z - x * u) * (e * z - d * u)) * square
  have signedA (z u : ℤ) : 0 ≤ f.a * f.swap.eval z u ↔ ¬ Between y x e d z u := by
    have split : f.a * f.swap.eval z u = y * e * (σ * f.eval u z) := by
      rw [eval_swap, ha]
      ring
    rw [split, value, mul_nonneg_iff_of_pos_left (mul_pos hy he), between_swap_iff, Between, not_lt]
  have signedC (z u : ℤ) : 0 ≤ f.c * f.eval z u ↔ ¬ Between x y d e z u := by
    have split : f.c * f.eval z u = x * d * (σ * f.eval z u) := by
      rw [hc]
      ring
    rw [split, value, mul_nonneg_iff_of_pos_left (mul_pos hx hd), Between, not_lt]
  have slopes : x * e + d * y ≤ y * e := by
    have total := add_pos (mul_pos hx he) (mul_pos hd hy)
    rwa [hb, ha, abs_mul, abs_mul, abs_neg, unit, one_mul, one_mul, abs_of_pos total,
      abs_of_pos (mul_pos hy he)] at window
  have strips := not_congr (exists_inStrip_iff hx hy hd he coprime slopes)
  push Not at strips
  simp only [signedA, signedC, imp_not_comm]
  exact strips.symm

theorem narrowAt_swap_iff (hx : 0 < x) (hy : 0 < y) (same : 0 < f.a * f.c)
    (window : |f.b| ≤ |f.a|) : f.swap.NarrowAt y x ↔ f.NarrowAt x y := by
  constructor
  · intro narrow
    have zero : f.eval x y = 0 := (eval_swap f y x).symm.trans narrow.zero
    have coprime := narrow.coprime.symm
    exact ⟨coprime, zero, (signed_swap_iff hx hy coprime zero same window).mp narrow.signed⟩
  · intro narrow
    have signed := signed_swap_iff hx hy narrow.coprime narrow.zero same window
    exact ⟨narrow.coprime.symm, (eval_swap f y x).trans narrow.zero, signed.mpr narrow.signed⟩

/-- The coordinates of zeros are interchangeable. -/
theorem narrow_swap_iff (same : 0 < f.a * f.c) (window : |f.b| ≤ |f.a|) :
    f.swap.Narrow ↔ f.Narrow := by
  have ha : f.a ≠ 0 := left_ne_zero_of_mul same.ne'
  have hc : f.c ≠ 0 := right_ne_zero_of_mul same.ne'
  have window' : |f.opposite.b| ≤ |f.opposite.a| := by
    change |-f.b| ≤ |f.a|
    rwa [abs_neg]
  constructor
  · intro narrow
    obtain ⟨y, x, hy, hx, narrow | narrow⟩ := narrow.exists_pos hc ha
    · exact ⟨x, y, (narrowAt_swap_iff hx hy same window).mp narrow⟩
    · have exchanged := narrowAt_swap_iff (f := f.opposite) hx hy same window'
      exact Narrow.of_opposite ⟨x, y, exchanged.mp narrow⟩
  · intro narrow
    obtain ⟨x, y, hx, hy, narrow | narrow⟩ := narrow.exists_pos ha hc
    · exact ⟨y, x, (narrowAt_swap_iff hx hy same window).mpr narrow⟩
    · have exchanged := narrowAt_swap_iff (f := f.opposite) hx hy same window'
      exact Narrow.of_opposite ⟨y, x, exchanged.mpr narrow⟩

/-! ## Forms where the turns end -/

theorem narrow_of_c_eq_zero (zero : f.c = 0) : f.Narrow := by
  refine ⟨0, 1, isCoprime_zero_left.mpr isUnit_one, ?_, fun z u _ => ?_⟩
  · unfold eval
    rw [zero]
    ring
  · rw [zero, zero_mul]

/-- Before the last turn only the first coordinates `-1`, `0` and `1` are in the strip. -/
theorem narrow_swap_of_c_eq_zero (zero : f.c = 0) (window : |f.b| ≤ |f.a|) : f.swap.Narrow := by
  refine ⟨1, 0, isCoprime_one_left, ?_, fun z u inside => ?_⟩
  · unfold eval swap
    rw [zero]
    ring
  · have small : |z| ≤ 1 := by
      by_contra large
      push Not at large
      have square : |z| * |z| < |z| + 1 := by
        unfold InStrip at inside
        rwa [mul_one, one_pow, sq, ← abs_mul_abs_self] at inside
      have := mul_le_mul_of_nonneg_left (by omega : 2 ≤ |z|) (abs_nonneg z)
      omega
    have cross : |f.a * f.b * u * z| ≤ f.a ^ 2 * u ^ 2 := by
      rw [abs_mul, abs_mul, abs_mul]
      calc |f.a| * |f.b| * |u| * |z| ≤ |f.a| * |f.a| * |u| ^ 2 * 1 := by
            gcongr
            exact Int.le_self_sq |u|
        _ = f.a ^ 2 * u ^ 2 := by rw [abs_mul_abs_self, sq_abs, mul_one, ← sq]
    have value : f.a * f.swap.eval z u = f.a ^ 2 * u ^ 2 + f.a * f.b * u * z := by
      unfold eval swap
      rw [zero]
      ring
    change 0 ≤ f.a * f.swap.eval z u
    rw [value]
    have := neg_abs_le (f.a * f.b * u * z)
    omega

/-- Outer coefficients of opposite signs leave no room for a narrow zero. -/
theorem not_narrow_swap_of_neg (opposite : f.a * f.c < 0) : ¬ f.swap.Narrow := by
  intro narrow
  obtain ⟨x, y, narrow⟩ := narrow
  have hx := (narrow.ne_zero (right_ne_zero_of_mul opposite.ne)
    (left_ne_zero_of_mul opposite.ne)).1
  have inside : InStrip x 1 := by
    have := Int.one_le_abs hx
    have := sq_pos_of_ne_zero hx
    unfold InStrip
    rw [one_mul, one_pow]
    omega
  have signed : 0 ≤ f.a * f.swap.eval 1 0 := narrow.signed 1 0 inside
  have value : f.a * f.swap.eval 1 0 = f.a * f.c := by
    unfold eval swap
    ring
  omega

/-- Definite forms have no zeros at all. -/
theorem not_narrow_of_disc_neg (negative : f.disc < 0) : ¬ f.Narrow := by
  intro narrow
  obtain ⟨x, y, narrow⟩ := narrow
  have zero := narrow.zero
  have square : (2 * f.a * x + f.b * y) ^ 2 = f.disc * y ^ 2 := by
    unfold eval at zero
    unfold disc
    linear_combination (4 * f.a) * zero
  have outer : 0 < f.a * f.c := by
    unfold disc at negative
    have := sq_nonneg f.b
    linarith
  have hy := (narrow.ne_zero (left_ne_zero_of_mul outer.ne') (right_ne_zero_of_mul outer.ne')).2
  have below : f.disc * y ^ 2 < 0 := mul_neg_of_neg_of_pos negative (sq_pos_of_ne_zero hy)
  rw [← square] at below
  exact absurd below (not_lt.mpr (sq_nonneg _))

end Theory.BinaryForm
