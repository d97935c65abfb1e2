import GroupAccumulator.Theory.BinaryForm

/-!
# Reduction steps

One kind of substitution brings a positive definite form into the fundamental
domain: `turn` exchanges the outer coefficients and moves the new middle one by
multiples of `2 c`.

* `turn_normal`: with the rounded quotient the turned form has its middle
  coefficient in the window.
* `IsNormal.not_reduced`: a form in the window that is not reduced has a smaller
  last coefficient, or is on the boundary with the wrong sign.
* `turn_isReduced`: in the latter case one turn reduces it.
-/

namespace Theory.BinaryForm

variable {f g : BinaryForm}

/-! ## Positive definite forms -/

/-- Positive leading coefficient and negative discriminant. -/
structure PosDef (f : BinaryForm) : Prop where
  a_pos : 0 < f.a
  disc_neg : f.disc < 0

theorem PosDef.c_pos (pos : f.PosDef) : 0 < f.c := by
  have ha := pos.a_pos
  have hd := pos.disc_neg
  unfold disc at hd
  by_contra neg
  nlinarith [sq_nonneg f.b]

/-- Positive definite forms take positive values only. -/
theorem PosDef.eval_pos (pos : f.PosDef) {x y : ℤ} (ne : ¬(x = 0 ∧ y = 0)) : 0 < f.eval x y := by
  have ha := pos.a_pos
  have hd := pos.disc_neg
  have square : 4 * f.a * f.eval x y = (2 * f.a * x + f.b * y) ^ 2 + (-f.disc) * y ^ 2 := by
    unfold eval disc
    ring
  have positive : 0 < 4 * f.a * f.eval x y := by
    rw [square]
    by_cases hy : y = 0
    · have hx : x ≠ 0 := fun hx => ne ⟨hx, hy⟩
      rw [hy]
      have := sq_pos_of_ne_zero (mul_ne_zero (mul_ne_zero two_ne_zero ha.ne') hx)
      nlinarith
    · have := sq_pos_of_ne_zero hy
      nlinarith [sq_nonneg (2 * f.a * x + f.b * y)]
  exact pos_of_mul_pos_right positive (by linarith)

theorem PosDef.of_equivalent (pos : g.PosDef) (eqv : Equivalent f g) : f.PosDef := by
  obtain ⟨p, q, r, s, sub⟩ := eqv
  refine ⟨?_, sub.disc_eq ▸ pos.disc_neg⟩
  rw [sub.a_eq]
  refine pos.eval_pos fun zero => ?_
  have det := sub.det
  rw [zero.1, zero.2] at det
  norm_num at det

/-! ## The step -/

/-- `(c, -b + 2 s c, c s² - b s + a)`. -/
def turn (f : BinaryForm) (s : ℤ) : BinaryForm :=
  ⟨f.c, -f.b + 2 * (s * f.c), -(f.b * s) + f.a + f.c * (s * s)⟩

theorem turn_equivalent (f : BinaryForm) (s : ℤ) : Equivalent (f.turn s) f := by
  refine ⟨0, -1, 1, s, ⟨by ring, ?_, ?_, ?_⟩⟩ <;> simp only [turn, eval] <;> ring

/-! ## The window -/

/-- The middle coefficient lies in its window. -/
def IsNormal (f : BinaryForm) : Prop := -f.a < f.b ∧ f.b ≤ f.a

/-- The quotient `reduce` rounds down. -/
def turnQuotient (f : BinaryForm) : ℤ := (f.c + f.b) / (2 * f.c)

theorem turn_normal (pos : 0 < f.c) : (f.turn f.turnQuotient).IsNormal := by
  have split := Int.mul_ediv_add_emod (f.c + f.b) (2 * f.c)
  have low := Int.emod_nonneg (f.c + f.b) (by omega : 2 * f.c ≠ 0)
  have high := Int.emod_lt_of_pos (f.c + f.b) (by omega : 0 < 2 * f.c)
  unfold IsNormal turn turnQuotient
  dsimp only
  rw [mul_assoc, mul_comm f.c] at split
  constructor <;> linarith

/-- A form in the window fails to be reduced in one of two ways. -/
theorem IsNormal.not_reduced (normal : f.IsNormal) (not : ¬ f.IsReduced) :
    f.c < f.a ∨ (f.a = f.c ∧ f.b < 0) := by
  by_contra neither
  push Not at neither
  obtain ⟨le, tie⟩ := neither
  exact not ⟨normal.1, normal.2, le, tie⟩

/-- On the boundary with `b` negative, one turn flips the sign of `b`. -/
theorem turn_isReduced (normal : f.IsNormal) (same : f.a = f.c) (neg : f.b < 0) :
    (f.turn f.turnQuotient).IsReduced := by
  obtain ⟨low, high⟩ := normal
  have zero : f.turnQuotient = 0 := by
    unfold turnQuotient
    apply Int.ediv_eq_zero_of_lt <;> omega
  rw [zero]
  refine ⟨?_, ?_, ?_, ?_⟩ <;> simp only [turn] <;> omega

/-! ## Forms of any sign -/

/-- The quotient of a turn, rounded down for either sign of the divisor. -/
def floorQuotient (f : BinaryForm) : ℤ := (f.c + f.b).fdiv (2 * f.c)

/-- The middle coefficient is brought into a window around zero. -/
theorem abs_turn_b_le (ne : f.c ≠ 0) : |(f.turn f.floorQuotient).b| ≤ |f.c| := by
  cases ne.lt_or_gt with
  | inl negative =>
    have turned : f.floorQuotient = (-(f.c + f.b)).fdiv (-(2 * f.c)) :=
      (Int.neg_fdiv_neg _ _).symm
    have split := Int.mul_fdiv_add_fmod (-(f.c + f.b)) (-(2 * f.c))
    have low := Int.fmod_nonneg_of_pos (-(f.c + f.b)) (by omega : 0 < -(2 * f.c))
    have high := Int.fmod_lt_of_pos (-(f.c + f.b)) (by omega : 0 < -(2 * f.c))
    rw [← turned] at split
    rw [abs_of_neg negative, abs_le]
    constructor <;> simp only [turn] <;> linarith
  | inr positive =>
    have split : 2 * f.c * f.floorQuotient + (f.c + f.b).fmod (2 * f.c) = f.c + f.b :=
      Int.mul_fdiv_add_fmod _ _
    have low := Int.fmod_nonneg_of_pos (f.c + f.b) (by omega : 0 < 2 * f.c)
    have high := Int.fmod_lt_of_pos (f.c + f.b) (by omega : 0 < 2 * f.c)
    rw [abs_of_pos positive, abs_le]
    constructor <;> simp only [turn] <;> linarith

/-- It never grows. -/
theorem abs_turn_b_le_abs_b (ne : f.c ≠ 0) : |(f.turn f.floorQuotient).b| ≤ |f.b| := by
  rcases le_or_gt |f.c| |f.b| with larger | smaller
  · exact (abs_turn_b_le ne).trans larger
  · have window := abs_turn_b_le ne
    have moved : |2 * f.c * f.floorQuotient| < 2 * |f.c| := by
      calc |2 * f.c * f.floorQuotient| = |(f.turn f.floorQuotient).b + f.b| := by
            simp only [turn]
            ring_nf
        _ ≤ |(f.turn f.floorQuotient).b| + |f.b| := abs_add_le _ _
        _ < 2 * |f.c| := by linarith
    have zero : f.floorQuotient = 0 := by
      rw [abs_mul, abs_mul, abs_two] at moved
      have small : |f.floorQuotient| < 1 :=
        lt_of_mul_lt_mul_left (by linarith) (mul_nonneg two_pos.le (abs_nonneg f.c))
      exact Int.abs_lt_one_iff.mp small
    rw [zero]
    simp [turn]

theorem IsReduced.disc_neg (red : f.IsReduced) : f.disc < 0 := by
  have positive := red.pos
  have square : f.b ^ 2 ≤ f.a ^ 2 := sq_le_sq' red.lower.le red.upper
  have product : f.a * f.a ≤ f.a * f.c := mul_le_mul_of_nonneg_left red.le positive.le
  have := mul_pos positive positive
  unfold disc
  linarith

end Theory.BinaryForm
