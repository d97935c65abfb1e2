import GroupAccumulator.ClassReduction
import GroupAccumulator.Theory.FormZeros

/-!
# Which triples `elem` is done with

`elem` reduces a triple before it checks the discriminant, and `reduce` is meant for
positive definite forms.  On all other triples its loop has no reduced form to end with.
It goes on for ever, or a last coefficient becomes zero and the division by it panics.

On negative definite forms the loop never ends (`loops_of_neg`).  Where the discriminant
is not negative it never ends once the outer coefficients differ in sign
(`loops_of_sq_lt`), and before that the last coefficient shrinks with each turn.  So the
loop ends, in the panic, exactly on narrow forms (`reduceLoop_of_disc_nonneg`).
-/

namespace GroupAccumulator

open Theory

namespace ClassGroup

variable {f g : BinaryForm} {D : ℤ} {fuel : ℕ}

/-! ## Turns of any sign -/

theorem reduceLoop_step (ne : f.c ≠ 0) (not : ¬ f.IsReduced) :
    reduceLoop (fuel + 1) f.a f.b f.c = reduceLoop fuel (f.turn f.floorQuotient).a
      (f.turn f.floorQuotient).b (f.turn f.floorQuotient).c := by
  have divisor : 2 * f.c ≠ 0 := mul_ne_zero two_ne_zero ne
  rw [reduceLoop, if_neg (mt isReduced_iff.mp not), divRemFloor_of_ne_zero divisor]
  rfl

/-- With a last coefficient of zero the loop panics. -/
theorem reduceLoop_zero (zero : f.c = 0) :
    reduceLoop (fuel + 1) f.a f.b f.c = .error .divisionByZero := by
  have not : ¬ f.IsReduced := by
    intro red
    have := red.pos
    have := red.le
    omega
  rw [reduceLoop, if_neg (mt isReduced_iff.mp not), divRemFloor, zero, if_pos (mul_zero 2)]
  rfl

/-! ## Loops that do not end -/

/-- The loop runs out of any amount of fuel. -/
def Loops (f : BinaryForm) : Prop :=
  ∀ fuel, reduceLoop fuel f.a f.b f.c = .error .outOfFuel

theorem loops_of_invariant (invariant : BinaryForm → Prop)
    (step : ∀ f, invariant f →
      f.c ≠ 0 ∧ ¬ f.IsReduced ∧ invariant (f.turn f.floorQuotient))
    (holds : invariant f) : Loops f := by
  intro fuel
  refine eq_error_of_progress (fun fuel (f : BinaryForm) => reduceLoop fuel f.a f.b f.c)
    invariant (fun _ => rfl) (fun f holds => ?_) holds fuel
  obtain ⟨ne, not, holds'⟩ := step f holds
  exact ⟨_, holds', fun _ => reduceLoop_step ne not⟩

/-- Negative definite forms stay negative. -/
theorem loops_of_neg (negative : f.a < 0) (disc : f.disc < 0) : Loops f := by
  refine loops_of_invariant (fun f => f.a < 0 ∧ f.disc < 0) ?_ ⟨negative, disc⟩
  intro f still
  obtain ⟨negative, disc⟩ := still
  have last : f.c < 0 := by
    unfold BinaryForm.disc at disc
    have product : 0 < f.a * f.c := by nlinarith [sq_nonneg f.b]
    exact neg_of_mul_pos_right product negative.le
  refine ⟨last.ne, fun red => absurd red.pos (not_lt.mpr negative.le), last, ?_⟩
  rwa [(f.turn_equivalent f.floorQuotient).disc_eq]

/-- Outer coefficients of opposite signs keep them. -/
theorem loops_of_sq_lt (small : f.b ^ 2 < f.disc) : Loops f := by
  refine loops_of_invariant (fun f => f.b ^ 2 < f.disc) ?_ small
  intro f small
  have opposite : f.a * f.c < 0 := by
    unfold BinaryForm.disc at small
    linarith
  have last : f.c ≠ 0 := right_ne_zero_of_mul opposite.ne
  refine ⟨last, fun red => ?_, ?_⟩
  · have := red.disc_neg
    have := sq_nonneg f.b
    omega
  · rw [(f.turn_equivalent f.floorQuotient).disc_eq]
    exact (sq_le_sq.mpr (BinaryForm.abs_turn_b_le_abs_b last)).trans_lt small

/-! ## Discriminants that are not negative -/

/-- The last coefficient shrinks while the outer ones have one sign. -/
theorem abs_c_lt (disc : 0 ≤ f.disc) (same : 0 < f.a * f.c) (window : |f.b| ≤ |f.a|) :
    |f.c| < |f.a| := by
  have ha : 0 < |f.a| := abs_pos.mpr (left_ne_zero_of_mul same.ne')
  have outer : |f.a| * |f.c| = f.a * f.c := by rw [← abs_mul, abs_of_pos same]
  have square : f.b ^ 2 ≤ f.a ^ 2 := sq_le_sq.mpr window
  unfold BinaryForm.disc at disc
  refine lt_of_mul_lt_mul_left ?_ ha.le
  rw [outer, abs_mul_abs_self]
  linarith

/-- The loop panics on `f`. -/
def DividesByZero (f : BinaryForm) : Prop :=
  Faults (fun fuel => reduceLoop fuel f.a f.b f.c) .divisionByZero

theorem dividesByZero_of_c_eq_zero (zero : f.c = 0) : DividesByZero f :=
  Faults.succ (Faults.of_eq fun _ => reduceLoop_zero zero)

/-- The loop ends on `f` as it does on the turned form. -/
theorem loop_of_turn (ne : f.c ≠ 0) (not : ¬ f.IsReduced)
    (rest : ((f.turn f.floorQuotient).swap.Narrow ∧ DividesByZero (f.turn f.floorQuotient)) ∨
      (¬ (f.turn f.floorQuotient).swap.Narrow ∧ Loops (f.turn f.floorQuotient))) :
    (f.Narrow ∧ DividesByZero f) ∨ (¬ f.Narrow ∧ Loops f) := by
  rw [BinaryForm.narrow_turn_iff] at rest
  cases rest with
  | inl ends =>
    refine Or.inl ⟨ends.1, Faults.succ ?_⟩
    simp only [reduceLoop_step ne not]
    exact ends.2
  | inr loops =>
    refine Or.inr ⟨loops.1, fun fuel => ?_⟩
    cases fuel with
    | zero => rfl
    | succ fuel => exact (reduceLoop_step ne not).trans (loops.2 fuel)

/-- The loop ends in a division by zero on narrow forms, and does not end on others. -/
theorem reduceLoop_of_disc_nonneg (n : ℕ) (bound : |f.c| ≤ n) (disc : 0 ≤ f.disc) :
    (f.Narrow ∧ DividesByZero f) ∨ (¬ f.Narrow ∧ Loops f) := by
  induction n generalizing f with
  | zero =>
    have zero : f.c = 0 := abs_nonpos_iff.mp bound
    exact Or.inl ⟨BinaryForm.narrow_of_c_eq_zero zero, dividesByZero_of_c_eq_zero zero⟩
  | succ n ih =>
    by_cases zero : f.c = 0
    · exact Or.inl ⟨BinaryForm.narrow_of_c_eq_zero zero, dividesByZero_of_c_eq_zero zero⟩
    · have window := BinaryForm.abs_turn_b_le zero
      have disc' : 0 ≤ (f.turn f.floorQuotient).disc :=
        disc.trans_eq (f.turn_equivalent f.floorQuotient).disc_eq.symm
      apply loop_of_turn zero fun red => absurd red.disc_neg (not_lt.mpr disc)
      -- the turned form begins with `f.c`
      have first : (f.turn f.floorQuotient).a = f.c := rfl
      rw [← first] at bound window zero
      generalize f.turn f.floorQuotient = g at *
      rcases lt_trichotomy (g.a * g.c) 0 with opposite | vanishes | same
      · refine Or.inr ⟨BinaryForm.not_narrow_swap_of_neg opposite, loops_of_sq_lt ?_⟩
        unfold BinaryForm.disc
        linarith
      · have last : g.c = 0 := (mul_eq_zero.mp vanishes).resolve_left zero
        exact Or.inl ⟨BinaryForm.narrow_swap_of_c_eq_zero last window,
          dividesByZero_of_c_eq_zero last⟩
      · rw [BinaryForm.narrow_swap_iff same window]
        have shrinks := abs_c_lt disc' same window
        exact ih (by omega) disc'

/-! ## What is promised of `elem` -/

/-- The call panics. -/
def Panics {α : Type} (run : ℕ → Exec α) : Prop := ∃ p, p ≠ .outOfFuel ∧ Faults run p

/-- The call ends; it returns a reduced element with positive `a` for the valid triples,
and panics for the others. -/
structure ElemMeets (D a b c : ℤ) : Prop where
  ends : (∃ z, Returns (fun fuel => elem D fuel (a, b, c)) z) ∨
    Panics fun fuel => elem D fuel (a, b, c)
  accepts : (∃ z, Returns (fun fuel => elem D fuel (a, b, c)) z ∧
    isReduced z.a z.b z.c = true ∧ 0 < z.a) ↔ discriminant a b c = D ∧ 0 < a
  rejects : ¬ (discriminant a b c = D ∧ 0 < a) → Panics fun fuel => elem D fuel (a, b, c)

/-- The triples `elem` is done with: positive definite or narrow. -/
def Settled (a b c : ℤ) : Prop :=
  (0 < a ∧ discriminant a b c < 0) ∨ (⟨a, b, c⟩ : BinaryForm).Narrow

variable {a b c : ℤ}

/-! ## Loops -/

theorem elem_of_loops (loops : Loops ⟨a, b, c⟩) (fuel : ℕ) :
    elem D fuel (a, b, c) = .error .outOfFuel := by
  have run : reduceLoop fuel a b c = .error .outOfFuel := loops fuel
  simp only [elem, reduce, run]
  rfl

/-- A call that does not end is neither a value nor a panic. -/
theorem not_meets_of_loops (loops : Loops ⟨a, b, c⟩) : ¬ ElemMeets D a b c := by
  intro meets
  cases meets.ends with
  | inl returned =>
    rcases returned with ⟨z, returns⟩
    rcases returns.exists_eq with ⟨n, run⟩
    cases run.symm.trans (elem_of_loops loops n)
  | inr panics =>
    rcases panics with ⟨p, ne, faults⟩
    rcases faults.exists_eq with ⟨n, run⟩
    cases run.symm.trans (elem_of_loops loops n)
    exact ne rfl

/-! ## Panics -/

/-- On a triple that is not valid a panic is what is promised. -/
theorem meets_of_panics (invalid : ¬ (discriminant a b c = D ∧ 0 < a))
    (panics : Panics fun fuel => elem D fuel (a, b, c)) : ElemMeets D a b c := by
  refine ⟨Or.inr panics, ⟨fun accepted => ?_, fun valid => absurd valid invalid⟩, fun _ => panics⟩
  rcases accepted with ⟨z, returns, -⟩
  rcases panics with ⟨p, -, faults⟩
  exact absurd faults returns.not_faults

theorem panics_of_dividesByZero (zero : DividesByZero ⟨a, b, c⟩) :
    Panics fun fuel => elem D fuel (a, b, c) :=
  ⟨.divisionByZero, by decide, Faults.bind (Faults.bind zero)⟩

/-- A positive definite form of another discriminant fails the assertion. -/
theorem panics_of_disc_ne (pos : (⟨a, b, c⟩ : BinaryForm).PosDef) (ne : discriminant a b c ≠ D) :
    Panics fun fuel => elem D fuel (a, b, c) := by
  rcases reduce_returns pos with ⟨g, returns, -, eqv⟩
  refine ⟨.assertFailed, by decide, returns.bind_faults (Faults.of_eq fun _ => ?_)⟩
  have kept : discriminant g.a g.b g.c = discriminant a b c :=
    discriminant_eq.trans (eqv.disc_eq.trans discriminant_eq.symm)
  have fails : validate D g.a g.b g.c = false := decide_eq_false (kept.trans_ne ne)
  simp only [fails]
  rfl

/-! ## All triples -/

theorem meets_of_posDef (pos : (⟨a, b, c⟩ : BinaryForm).PosDef) : ElemMeets D a b c := by
  by_cases disc : discriminant a b c = D
  · rcases elem_returns pos (discriminant_eq.symm.trans disc) with ⟨z, returns, reduced, -⟩
    have positive : 0 < z.a := reduced.pos
    have valid : discriminant a b c = D ∧ 0 < a := ⟨disc, pos.a_pos⟩
    exact ⟨Or.inl ⟨z, returns⟩,
      ⟨fun _ => valid, fun _ => ⟨z, returns, isReduced_iff.mpr reduced, positive⟩⟩,
      fun invalid => absurd valid invalid⟩
  · exact meets_of_panics (fun valid => disc valid.1) (panics_of_disc_ne pos disc)

/-- A leading coefficient of a definite form is not zero. -/
theorem neg_of_not_pos (disc : (⟨a, b, c⟩ : BinaryForm).disc < 0) (not : ¬ 0 < a) : a < 0 := by
  refine lt_of_le_of_ne (not_lt.mp not) fun zero => ?_
  have square : (⟨a, b, c⟩ : BinaryForm).disc = b ^ 2 := by
    unfold BinaryForm.disc
    rw [zero]
    ring
  rw [square] at disc
  exact absurd disc (not_lt.mpr (sq_nonneg b))

theorem settled_or_loops (negative : D < 0) :
    (Settled a b c ∧ ElemMeets D a b c) ∨ (¬ Settled a b c ∧ Loops ⟨a, b, c⟩) := by
  have disc_eq : discriminant a b c = (⟨a, b, c⟩ : BinaryForm).disc :=
    discriminant_eq (f := ⟨a, b, c⟩)
  cases lt_or_ge (⟨a, b, c⟩ : BinaryForm).disc 0 with
  | inl disc =>
    by_cases positive : 0 < a
    · exact Or.inl ⟨Or.inl ⟨positive, disc_eq.trans_lt disc⟩, meets_of_posDef ⟨positive, disc⟩⟩
    · refine Or.inr ⟨fun settled => ?_, loops_of_neg (neg_of_not_pos disc positive) disc⟩
      cases settled with
      | inl posDef => exact positive posDef.1
      | inr narrow => exact BinaryForm.not_narrow_of_disc_neg disc narrow
  | inr disc =>
    cases reduceLoop_of_disc_nonneg c.natAbs (Int.abs_eq_natAbs c).le disc with
    | inl ends =>
      have invalid : ¬ (discriminant a b c = D ∧ 0 < a) := by
        intro valid
        have := valid.1
        omega
      exact Or.inl ⟨Or.inr ends.1, meets_of_panics invalid (panics_of_dividesByZero ends.2)⟩
    | inr loops =>
      refine Or.inr ⟨fun settled => ?_, loops.2⟩
      cases settled with
      | inl posDef =>
        have := posDef.2
        omega
      | inr narrow => exact loops.1 narrow

/-- `elem` does what is promised exactly on the settled triples; on the others it never
ends. -/
theorem elem_meets_iff (D a b c : ℤ) (negative : D < 0) :
    (ElemMeets D a b c ↔ Settled a b c) ∧
      (¬ Settled a b c → ∀ fuel, elem D fuel (a, b, c) = .error .outOfFuel) := by
  have either : (Settled a b c ∧ ElemMeets D a b c) ∨ (¬ Settled a b c ∧ Loops ⟨a, b, c⟩) :=
    settled_or_loops negative
  cases either with
  | inl ends => exact ⟨iff_of_true ends.2 ends.1, fun unsettled => absurd ends.1 unsettled⟩
  | inr loops =>
    exact ⟨iff_of_false (not_meets_of_loops loops.2) loops.1, fun _ => elem_of_loops loops.2⟩

/-- The bad element of the tests, positive definite of another discriminant. -/
theorem elem_meets_iff_neg_23 :
    (ElemMeets (-23) 1 2 3 ↔ Settled 1 2 3) ∧
      (¬ Settled 1 2 3 → ∀ fuel, elem (-23) fuel (1, 2, 3) = .error .outOfFuel) :=
  elem_meets_iff (-23) 1 2 3 (by decide)

/-- A negative definite triple and an indefinite one, with the constant of the crate. -/
theorem elem_never_ends :
    (¬ ElemMeets CLASS_GROUP_DISCRIMINANT (-1) 1 (-1) ∧
      ∀ fuel, elem CLASS_GROUP_DISCRIMINANT fuel (-1, 1, -1) = .error .outOfFuel) ∧
    ¬ ElemMeets CLASS_GROUP_DISCRIMINANT 1 0 (-1) ∧
      ∀ fuel, elem CLASS_GROUP_DISCRIMINANT fuel (1, 0, -1) = .error .outOfFuel := by
  have definite : Loops ⟨-1, 1, -1⟩ := loops_of_neg (by decide) (by decide)
  have indefinite : Loops ⟨1, 0, -1⟩ := loops_of_sq_lt (by decide)
  exact ⟨⟨not_meets_of_loops definite, elem_of_loops definite⟩,
    not_meets_of_loops indefinite, elem_of_loops indefinite⟩

end ClassGroup

end GroupAccumulator
