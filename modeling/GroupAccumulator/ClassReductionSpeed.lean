import GroupAccumulator.ClassReduction
import GroupAccumulator.Theory.FormDescent
import Mathlib.Data.Nat.Size

/-!
# The number of turns of `reduce`

The loop of `reduce` runs on fuel, one unit for each turn and one for the test that ends
it.  For a positive definite form it needs at most `k + 2` turns where `c ^ 2 < 4 ^ k * -disc`
(`reduceLoop_of_bound`): the first brings the middle coefficient into its window, each of the
next `k` halves the leading coefficient, and the last one reduces.
-/

namespace GroupAccumulator

open Theory BinaryForm

namespace ClassGroup

variable {f : BinaryForm}

/-- The loop returns within the given number of turns. -/
def EndsWithin (turns : ℕ) (f : BinaryForm) : Prop :=
  ∃ g : BinaryForm, g.IsReduced ∧ g.Equivalent f ∧
    reduceLoop (turns + 1) f.a f.b f.c = .ok (g.a, g.b, g.c)

theorem EndsWithin.of_reduced (red : f.IsReduced) (turns : ℕ) : EndsWithin turns f :=
  ⟨f, red, .refl f, reduceLoop_reduced red⟩

/-- One more turn at the front. -/
theorem EndsWithin.of_turn {turns : ℕ} (pos : 0 < f.c)
    (rest : EndsWithin turns (f.turn f.turnQuotient)) : EndsWithin (turns + 1) f := by
  by_cases red : f.IsReduced
  · exact .of_reduced red _
  · obtain ⟨g, reduced, eqv, returned⟩ := rest
    refine ⟨g, reduced, eqv.trans (f.turn_equivalent f.turnQuotient), ?_⟩
    rw [reduceLoop_turn pos red]
    exact returned

theorem endsWithin_of_small (pos : f.PosDef) (normal : f.IsNormal) (small : f.a ^ 2 < -f.disc)
    (turns : ℕ) : EndsWithin (turns + 1) f := by
  by_cases red : f.IsReduced
  · exact .of_reduced red _
  · apply EndsWithin.of_turn pos.c_pos
    apply EndsWithin.of_reduced
    rcases normal.not_reduced red with smaller | ⟨same, negative⟩
    · exact normal.turn_isReduced_of_small pos smaller small
    · exact turn_isReduced normal same negative

/-- On a form in the window, one turn for each halving and one more. -/
theorem endsWithin_of_normal (k : ℕ) (pos : f.PosDef) (normal : f.IsNormal)
    (bound : f.a ^ 2 < 4 ^ k * -f.disc) : EndsWithin (k + 1) f := by
  induction k generalizing f with
  | zero =>
    rw [pow_zero, one_mul] at bound
    exact endsWithin_of_small pos normal bound 0
  | succ k ih =>
    rcases lt_or_ge (f.a ^ 2) (-f.disc) with small | large
    · exact endsWithin_of_small pos normal small (k + 1)
    · have turned := f.turn_equivalent f.turnQuotient
      have halved := normal.two_c_le pos large
      apply EndsWithin.of_turn pos.c_pos
      apply ih (pos.of_equivalent turned) (turn_normal pos.c_pos)
      rw [turned.disc_eq]
      change f.c ^ 2 < 4 ^ k * -f.disc
      have outer : (2 * f.c) ^ 2 ≤ f.a ^ 2 :=
        pow_le_pow_left₀ (mul_nonneg two_pos.le pos.c_pos.le) halved 2
      rw [pow_succ (4 : ℤ) k] at bound
      linarith

theorem endsWithin_of_bound (k : ℕ) (pos : f.PosDef) (bound : f.c ^ 2 < 4 ^ k * -f.disc) :
    EndsWithin (k + 2) f := by
  have turned := f.turn_equivalent f.turnQuotient
  apply EndsWithin.of_turn pos.c_pos
  apply endsWithin_of_normal k (pos.of_equivalent turned) (turn_normal pos.c_pos)
  rw [turned.disc_eq]
  exact bound

/-- `reduce` returns the reduced form after at most the given number of turns. -/
def ReducesWithin (turns : ℕ) (f : BinaryForm) : Prop :=
  ∃ g : BinaryForm, g.IsReduced ∧ g.Equivalent f ∧
    reduce (turns + 1) f.a f.b f.c = .ok (g.a, g.b, g.c)

theorem EndsWithin.reduces {turns : ℕ} (ends : EndsWithin turns f) : ReducesWithin turns f := by
  obtain ⟨g, reduced, eqv, returned⟩ := ends
  refine ⟨g, reduced, eqv, ?_⟩
  unfold reduce
  rw [returned]
  exact normalize_of_normal reduced.window

/-- `reduce` takes at most two turns more than it takes to halve `c` below the square root of
`-disc`.  So their number is at most two more than the number of binary digits of `c`, whatever
the other coefficients are. -/
theorem reduce_turns (f : BinaryForm) (pos : f.PosDef) :
    (∀ k : ℕ, f.c ^ 2 < 4 ^ k * -f.disc → ReducesWithin (k + 2) f) ∧
      ReducesWithin (f.c.toNat.size + 2) f := by
  refine ⟨fun k bound => (endsWithin_of_bound k pos bound).reduces, ?_⟩
  apply EndsWithin.reduces
  apply endsWithin_of_bound _ pos
  have positive := pos.c_pos
  have negative := pos.disc_neg
  have digits : f.c < 2 ^ f.c.toNat.size := by
    have natural := Nat.lt_size_self f.c.toNat
    zify at natural
    rwa [Int.toNat_of_nonneg positive.le] at natural
  calc f.c ^ 2 < (2 ^ f.c.toNat.size) ^ 2 := pow_lt_pow_left₀ digits positive.le two_ne_zero
    _ = 4 ^ f.c.toNat.size := by
      rw [← pow_mul, mul_comm, pow_mul]
      norm_num
    _ ≤ 4 ^ f.c.toNat.size * -f.disc :=
      le_mul_of_one_le_right (by positivity) (by omega)

/-- The form `(1, 9, 26)` of discriminant `-23` and its seven turns at most. -/
theorem reduce_turns_neg_23 :
    (∀ k : ℕ, (26 : ℤ) ^ 2 < 4 ^ k * -(⟨1, 9, 26⟩ : BinaryForm).disc →
        ReducesWithin (k + 2) ⟨1, 9, 26⟩) ∧
      ReducesWithin (Nat.size 26 + 2) ⟨1, 9, 26⟩ :=
  reduce_turns ⟨1, 9, 26⟩ ⟨by decide, by decide⟩

end ClassGroup

end GroupAccumulator
