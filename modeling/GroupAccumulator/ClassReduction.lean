import GroupAccumulator.ClassGroup
import GroupAccumulator.Theory.FormReduction
import GroupAccumulator.Theory.Fueled

/-!
# Reduction in the class group

Each turn of `reduce`'s loop is a unimodular substitution.  After the first one
the middle coefficient lies in its window; from then on the leading coefficient
decreases until the form is reduced, up to one last turn on the boundary.  So
the loop ends on every positive definite form (`exists_loopsTo`), and `elem` builds
the reduced form of its class (`elem_returns`).  A class has one reduced form, so two
forms are reduced to the same triple exactly when they are equivalent.

What `elem` returns is reduced and of discriminant `D` whatever it is given
(`elem_spec`).
-/

namespace GroupAccumulator

open Theory

/-! ## Forms -/

/-- The form of a class group element. -/
def ClassElem.form (x : ClassElem) : BinaryForm := ⟨x.a, x.b, x.c⟩

theorem ClassElem.form_injective {x y : ClassElem} (same : x.form = y.form) : x = y := by
  rcases x with ⟨a, b, c⟩
  cases same
  rfl

namespace ClassGroup

variable {f g : BinaryForm} {D : ℤ} {fuel : ℕ}

theorem isNormal_iff : isNormal f.a f.b f.c = true ↔ f.IsNormal := by
  simp [isNormal, BinaryForm.IsNormal]

theorem isReduced_iff : isReduced f.a f.b f.c = true ↔ f.IsReduced := by
  simp only [isReduced, isNormal, Bool.and_eq_true, Bool.not_eq_true', decide_eq_true_eq,
    Bool.and_eq_false_iff, decide_eq_false_iff_not]
  constructor
  · intro red
    rcases red with ⟨⟨low, high⟩, le, tie⟩
    exact ⟨low, high, le, fun same => by omega⟩
  · intro red
    rcases red with ⟨low, high, le, tie⟩
    refine ⟨⟨low, high⟩, le, ?_⟩
    by_cases same : f.a = f.c
    · exact Or.inr (by have := tie same; omega)
    · exact Or.inl same

theorem discriminant_eq : discriminant f.a f.b f.c = f.disc := by
  unfold discriminant BinaryForm.disc
  ring

/-! ## The loop -/

theorem reduceLoop_reduced (red : f.IsReduced) :
    reduceLoop (fuel + 1) f.a f.b f.c = .ok (f.a, f.b, f.c) := by
  rw [reduceLoop, if_pos (isReduced_iff.mpr red)]
  rfl

theorem reduceLoop_turn (pos : 0 < f.c) (not : ¬ f.IsReduced) :
    reduceLoop (fuel + 1) f.a f.b f.c = reduceLoop fuel (f.turn f.turnQuotient).a
      (f.turn f.turnQuotient).b (f.turn f.turnQuotient).c := by
  have divisor : 2 * f.c ≠ 0 := by omega
  have quotient : (f.c + f.b).fdiv (2 * f.c) = f.turnQuotient :=
    Int.fdiv_eq_ediv_of_nonneg _ (by omega)
  rw [reduceLoop, if_neg (mt isReduced_iff.mp not), divRemFloor_of_ne_zero divisor, quotient]
  rfl

/-- On `f` the loop ends with `g`, a reduced form of the same class. -/
structure LoopsTo (f g : BinaryForm) : Prop where
  returns : Returns (fun fuel => reduceLoop fuel f.a f.b f.c) (g.a, g.b, g.c)
  reduced : g.IsReduced
  equivalent : g.Equivalent f

theorem LoopsTo.refl (red : f.IsReduced) : LoopsTo f f :=
  ⟨Returns.succ (Returns.of_eq fun _ => reduceLoop_reduced red), red, .refl f⟩

/-- One more turn at the front. -/
theorem LoopsTo.of_turn (pos : 0 < f.c) (not : ¬ f.IsReduced)
    (rest : LoopsTo (f.turn f.turnQuotient) g) : LoopsTo f g := by
  have turned := f.turn_equivalent f.turnQuotient
  refine ⟨Returns.succ ?_, rest.reduced, rest.equivalent.trans turned⟩
  simp only [reduceLoop_turn pos not]
  exact rest.returns

/-- The loop on a form in the window, by the size of the leading coefficient. -/
theorem exists_loopsTo_of_normal (n : ℕ) (pos : f.PosDef) (normal : f.IsNormal)
    (bound : f.a ≤ n) : ∃ g, LoopsTo f g := by
  induction n generalizing f with
  | zero =>
    have := pos.a_pos
    omega
  | succ n ih =>
    by_cases red : f.IsReduced
    · exact ⟨f, .refl red⟩
    · rcases normal.not_reduced red with smaller | ⟨same, neg⟩
      · have decreased : (f.turn f.turnQuotient).a ≤ n := by
          change f.c ≤ n
          omega
        have pos' := pos.of_equivalent (f.turn_equivalent f.turnQuotient)
        rcases ih pos' (BinaryForm.turn_normal pos.c_pos) decreased with ⟨g, rest⟩
        exact ⟨g, rest.of_turn pos.c_pos red⟩
      · have last := LoopsTo.refl (BinaryForm.turn_isReduced normal same neg)
        exact ⟨_, last.of_turn pos.c_pos red⟩

/-- The loop ends on every positive definite form. -/
theorem exists_loopsTo (pos : f.PosDef) : ∃ g, LoopsTo f g := by
  by_cases red : f.IsReduced
  · exact ⟨f, .refl red⟩
  · have pos' := pos.of_equivalent (f.turn_equivalent f.turnQuotient)
    rcases exists_loopsTo_of_normal _ pos' (BinaryForm.turn_normal pos.c_pos)
      (Int.self_le_toNat _) with ⟨g, rest⟩
    exact ⟨g, rest.of_turn pos.c_pos red⟩

theorem normalize_of_normal (normal : f.IsNormal) :
    normalize f.a f.b f.c = .ok (f.a, f.b, f.c) :=
  if_pos (isNormal_iff.mpr normal)

theorem reduce_returns (pos : f.PosDef) :
    ∃ g : BinaryForm, Returns (fun fuel => reduce fuel f.a f.b f.c) (g.a, g.b, g.c) ∧
      g.IsReduced ∧ g.Equivalent f := by
  rcases exists_loopsTo pos with ⟨g, loop⟩
  refine ⟨g, loop.returns.bind (Returns.of_eq fun _ => ?_), loop.reduced, loop.equivalent⟩
  exact normalize_of_normal loop.reduced.window

/-! ## Building elements -/

/-- From a positive definite form of the right discriminant `elem` builds the
reduced element of its class. -/
theorem elem_returns (pos : f.PosDef) (disc : f.disc = D) :
    ∃ z : ClassElem, Returns (fun fuel => elem D fuel (f.a, f.b, f.c)) z ∧
      z.form.IsReduced ∧ z.form.Equivalent f := by
  rcases reduce_returns pos with ⟨g, returns, reduced, eqv⟩
  refine ⟨⟨g.a, g.b, g.c⟩, returns.bind (Returns.of_eq fun _ => ?_), reduced, eqv⟩
  have valid : validate D g.a g.b g.c = true :=
    decide_eq_true (discriminant_eq.trans (eqv.disc_eq.trans disc))
  simp only [valid]
  rfl

/-- Each form is reduced within its class, equivalent forms to the same triple, and
elements built from forms of discriminant `D` are equal exactly when the forms are
equivalent. -/
theorem reduce_canonical (D : ℤ) (f g : BinaryForm) (hf : f.PosDef) (hg : g.PosDef) :
    (∃ r : BinaryForm, Returns (fun fuel => reduce fuel f.a f.b f.c) (r.a, r.b, r.c) ∧
      isReduced r.a r.b r.c = true ∧
      discriminant r.a r.b r.c = discriminant f.a f.b f.c ∧ r.Equivalent f) ∧
    (f.Equivalent g → ∃ r, Returns (fun fuel => reduce fuel f.a f.b f.c) r ∧
      Returns (fun fuel => reduce fuel g.a g.b g.c) r) ∧
    (discriminant f.a f.b f.c = D → discriminant g.a g.b g.c = D →
      ∃ x y, Returns (fun fuel => elem D fuel (f.a, f.b, f.c)) x ∧
        Returns (fun fuel => elem D fuel (g.a, g.b, g.c)) y ∧ (x = y ↔ f.Equivalent g)) := by
  rcases reduce_returns hf with ⟨r, returnsR, reducedR, eqvR⟩
  rcases reduce_returns hg with ⟨s, returnsS, reducedS, eqvS⟩
  refine ⟨⟨r, returnsR, isReduced_iff.mpr reducedR, ?_, eqvR⟩, fun eqv => ?_, fun discF discG => ?_⟩
  · rw [discriminant_eq, discriminant_eq, eqvR.disc_eq]
  · have same : r = s := reducedR.eq_of_equivalent reducedS (eqvR.trans (eqv.trans eqvS.symm))
    exact ⟨_, returnsR, same ▸ returnsS⟩
  · rcases elem_returns hf (discriminant_eq.symm.trans discF) with ⟨x, returnsX, reducedX, eqvX⟩
    rcases elem_returns hg (discriminant_eq.symm.trans discG) with ⟨y, returnsY, reducedY, eqvY⟩
    refine ⟨x, y, returnsX, returnsY, fun same => ?_, fun eqv => ?_⟩
    · exact (same ▸ eqvX.symm).trans eqvY
    · exact ClassElem.form_injective
        (reducedX.eq_of_equivalent reducedY (eqvX.trans (eqv.trans eqvY.symm)))

/-- On a form and one that is not reduced, of the same class. -/
theorem reduce_canonical_neg_23 :
    (∃ r : BinaryForm, Returns (fun fuel => reduce fuel 2 (-3) 4) (r.a, r.b, r.c) ∧
      isReduced r.a r.b r.c = true ∧
      discriminant r.a r.b r.c = discriminant 2 (-3) 4 ∧ r.Equivalent ⟨2, -3, 4⟩) ∧
    ((⟨2, -3, 4⟩ : BinaryForm).Equivalent ⟨2, 1, 3⟩ →
      ∃ r, Returns (fun fuel => reduce fuel 2 (-3) 4) r ∧
        Returns (fun fuel => reduce fuel 2 1 3) r) ∧
    (discriminant 2 (-3) 4 = -23 → discriminant 2 1 3 = -23 →
      ∃ x y, Returns (fun fuel => elem (-23) fuel (2, -3, 4)) x ∧
        Returns (fun fuel => elem (-23) fuel (2, 1, 3)) y ∧
        (x = y ↔ (⟨2, -3, 4⟩ : BinaryForm).Equivalent ⟨2, 1, 3⟩)) :=
  reduce_canonical (-23) ⟨2, -3, 4⟩ ⟨2, 1, 3⟩ ⟨by decide, by decide⟩ ⟨by decide, by decide⟩

theorem isReduced_of_reduceLoop {a b c a' b' c' : ℤ}
    (run : reduceLoop fuel a b c = .ok (a', b', c')) : isReduced a' b' c' = true := by
  induction fuel generalizing a b c with
  | zero => cases run
  | succ fuel ih =>
    rw [reduceLoop] at run
    split at run
    next red =>
      cases run
      exact red
    next =>
      rcases Exec.bind_eq_ok run with ⟨⟨s, r⟩, -, run⟩
      exact ih run

/-- Whatever triple it is given, `elem` only returns valid reduced elements. -/
theorem elem_spec {abc : ℤ × ℤ × ℤ} {z : ClassElem} (run : elem D fuel abc = .ok z) :
    z.form.IsReduced ∧ z.form.disc = D := by
  rcases Exec.bind_eq_ok run with ⟨⟨a, b, c⟩, reduced, run⟩
  rcases Exec.bind_eq_ok reduced with ⟨⟨a', b', c'⟩, looped, normalized⟩
  rcases Exec.bind_eq_ok run with ⟨_, asserted, returned⟩
  cases returned
  have red : (⟨a', b', c'⟩ : BinaryForm).IsReduced :=
    isReduced_iff.mp (isReduced_of_reduceLoop looped)
  have kept := normalized.symm.trans (normalize_of_normal red.window)
  cases kept
  refine ⟨red, ?_⟩
  rw [← discriminant_eq]
  exact of_decide_eq_true (of_assert_eq_ok asserted)

end ClassGroup

end GroupAccumulator
