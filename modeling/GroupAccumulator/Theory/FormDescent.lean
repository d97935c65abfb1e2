import GroupAccumulator.Theory.FormReduction

/-!
# How fast forms descend

A turn makes the last coefficient of a form in the window the leading one.  While the square
of the leading coefficient is at least `-disc` this halves it (`two_c_le`).  Once it is not,
one more turn reduces the form (`turn_isReduced_of_small`).
-/

namespace Theory.BinaryForm

variable {f : BinaryForm}

theorem IsNormal.b_sq_le (normal : f.IsNormal) : f.b ^ 2 ≤ f.a ^ 2 := by
  obtain ⟨low, high⟩ := normal
  exact sq_le_sq' low.le high

/-- Above the square root of the discriminant. -/
theorem IsNormal.two_c_le (normal : f.IsNormal) (pos : f.PosDef) (large : -f.disc ≤ f.a ^ 2) :
    2 * f.c ≤ f.a := by
  have positive := pos.a_pos
  have window := normal.b_sq_le
  have disc : f.b ^ 2 - 4 * f.a * f.c = f.disc := rfl
  have product : f.a * (2 * f.c) ≤ f.a * f.a := by linarith
  exact le_of_mul_le_mul_left product positive

/-- The quotients that remain where the window is less than two periods wide. -/
theorem IsNormal.turnQuotient_cases (normal : f.IsNormal) (narrow : f.a < 2 * f.c) :
    f.turnQuotient = 0 ∨ f.turnQuotient = 1 ∨ f.turnQuotient = -1 := by
  obtain ⟨low, high⟩ := normal
  have positive : 0 < 2 * f.c := by omega
  rcases lt_or_ge f.b f.c with below | above
  · rcases lt_or_ge f.b (-f.c) with negative | inside
    · exact Or.inr (Or.inr ((Int.ediv_eq_iff_of_pos positive).mpr (by omega)))
    · exact Or.inl (Int.ediv_eq_zero_of_lt (by omega) (by omega))
  · exact Or.inr (Or.inl ((Int.ediv_eq_iff_of_pos positive).mpr (by omega)))

/-- Below it, the turned form has no smaller last coefficient than leading one. -/
theorem IsNormal.turn_c_of_small (normal : f.IsNormal) (pos : f.PosDef) (smaller : f.c < f.a)
    (small : f.a ^ 2 < -f.disc) :
    f.c < (f.turn f.turnQuotient).c ∨
      (f.c = (f.turn f.turnQuotient).c ∧ 0 ≤ (f.turn f.turnQuotient).b) := by
  have positive := pos.c_pos
  obtain ⟨low, high⟩ := normal
  rcases le_or_gt (2 * f.c) f.a with wide | narrow
  · -- the discriminant alone makes the last coefficient large
    left
    have disc : (f.turn f.turnQuotient).b ^ 2 - 4 * f.c * (f.turn f.turnQuotient).c = f.disc :=
      (f.turn_equivalent f.turnQuotient).disc_eq
    have outer : (2 * f.c) ^ 2 ≤ f.a ^ 2 := pow_le_pow_left₀ (by omega) wide 2
    have square := sq_nonneg (f.turn f.turnQuotient).b
    have product : 4 * f.c * f.c < 4 * f.c * (f.turn f.turnQuotient).c := by linarith
    exact lt_of_mul_lt_mul_left product (by omega)
  · rcases IsNormal.turnQuotient_cases ⟨low, high⟩ narrow with zero | one | neg
    · rw [zero]
      simp only [turn]
      omega
    · rw [one]
      simp only [turn]
      omega
    · rw [neg]
      simp only [turn]
      omega

/-- Then one turn reduces. -/
theorem IsNormal.turn_isReduced_of_small (normal : f.IsNormal) (pos : f.PosDef)
    (smaller : f.c < f.a) (small : f.a ^ 2 < -f.disc) :
    (f.turn f.turnQuotient).IsReduced := by
  obtain ⟨low, high⟩ := turn_normal pos.c_pos
  refine ⟨low, high, ?_, fun tie => ?_⟩
  · change f.c ≤ (f.turn f.turnQuotient).c
    rcases normal.turn_c_of_small pos smaller small with larger | ⟨same, -⟩
    · exact larger.le
    · exact same.le
  · change f.c = (f.turn f.turnQuotient).c at tie
    rcases normal.turn_c_of_small pos smaller small with larger | ⟨-, nonneg⟩
    · omega
    · exact nonneg

end Theory.BinaryForm
