import GroupAccumulator.ClassGroupLaws

/-!
# The representation invariant of class group elements

`Hash` and `PartialEq` compare triples and assume them reduced.  `Built` are the
elements obtained by composing the constructors and operations of the group,
with a condition on what `inv_` is applied to.  All of them but `inv_` end in
`elem` or build a reduced triple directly; `inv_` only turns the sign of `b`,
which leaves the reduced domain exactly on its boundary (`inv_reduced_iff`).

`Built.reduced` is the invariant while `inv_` stays off the boundary.  Then
triples, their bytes and classes agree (`ClassElem.Reduced.eq_iff`,
`feed_injective`).
-/

namespace GroupAccumulator

open Theory

/-- Triples of reduced elements differ exactly when their classes do. -/
theorem ClassElem.Reduced.eq_iff {D : ℤ} {x y : ClassElem} (hx : x.Reduced D)
    (hy : y.Reduced D) : x = y ↔ x.form.Equivalent y.form := by
  refine ⟨fun same => same ▸ .refl _, fun eqv => ?_⟩
  exact form_injective (hx.isReduced_form.eq_of_equivalent hy.isReduced_form eqv)

namespace ClassGroup

variable {D : ℤ} {x y z : ClassElem} {R : Rug} {fuel : ℕ}

/-! ## What each operation returns -/

theorem reduced_of_elem {abc : ℤ × ℤ × ℤ} (run : elem D fuel abc = .ok z) : z.Reduced D :=
  ClassElem.Reduced.of_form (elem_spec run).1 (elem_spec run).2

theorem reduced_of_op (run : op_ R D fuel x y = .ok z) : z.Reduced D := by
  rcases Exec.bind_eq_ok run with ⟨vars, -, built⟩
  exact reduced_of_elem built

theorem reduced_of_square (run : square R D fuel x = .ok z) : z.Reduced D := by
  rcases Exec.bind_eq_ok run with ⟨_, -, run⟩
  rcases Exec.bind_eq_ok run with ⟨_, -, run⟩
  rcases Exec.bind_eq_ok run with ⟨_, -, built⟩
  exact reduced_of_elem built

/-- The loop returns its accumulator, which only `op_` replaces. -/
theorem reduced_of_expLoop {val a : ClassElem} {n : ℤ} (hval : val.Reduced D)
    (run : expLoop R D fuel val a n = .ok z) : z.Reduced D := by
  induction fuel generalizing val a n with
  | zero => cases run
  | succ fuel ih =>
    rw [expLoop] at run
    split at run
    next =>
      cases run
      exact hval
    next =>
      rcases Exec.bind_eq_ok run with ⟨val', multiplied, run⟩
      rcases Exec.bind_eq_ok run with ⟨a', -, run⟩
      have hval' : val'.Reduced D := by
        split at multiplied
        next => exact reduced_of_op multiplied
        next =>
          cases multiplied
          exact hval
      exact ih hval' run

theorem reduced_of_exp {n : ℤ} (hD : IsDiscriminant D) (run : exp_ R D fuel x n = .ok z) :
    z.Reduced D := by
  unfold exp_ at run
  split at run
  · exact reduced_of_expLoop (id_reduced hD) run
  · exact reduced_of_expLoop (id_reduced hD) run

/-- The constant is built for discriminants that are `1` modulo `8`. -/
theorem unknownOrderElem_reduced (residue : D % 8 = 1) (large : D < -7) :
    (unknownOrderElem_ D).Reduced D := by
  have quotient : (1 - D).tdiv 8 = (1 - D) / 8 := Int.tdiv_eq_ediv_of_nonneg (by omega)
  have c_eq : (unknownOrderElem_ D).form.c = (1 - D) / 8 := quotient
  apply ClassElem.Reduced.of_form
  · refine ⟨(by decide : (-2 : ℤ) < 1), (by decide : (1 : ℤ) ≤ 2), ?_, fun _ => Int.one_nonneg⟩
    change 2 ≤ (unknownOrderElem_ D).form.c
    omega
  · unfold BinaryForm.disc
    rw [c_eq]
    change (1 : ℤ) ^ 2 - 4 * 2 * ((1 - D) / 8) = D
    omega

example : CLASS_GROUP_DISCRIMINANT % 8 = 1 ∧ CLASS_GROUP_DISCRIMINANT < -7 := by decide

/-! ## The inverse -/

/-- Off the two edges of the reduced domain whose mirror images are cut away. -/
def Interior (x : ClassElem) : Prop := x.b ≠ x.a ∧ ¬(x.a = x.c ∧ 0 < x.b)

/-- The inverse of a reduced element is reduced exactly off the boundary. -/
theorem inv_reduced_iff (hx : x.Reduced D) :
    isReduced (inv_ x).a (inv_ x).b (inv_ x).c = true ↔ Interior x := by
  rcases hx.isReduced_form with ⟨low, high, le, tie⟩
  change -x.a < x.b at low
  change x.b ≤ x.a at high
  change x.a ≤ x.c at le
  change x.a = x.c → 0 ≤ x.b at tie
  refine (isReduced_iff (f := (inv_ x).form)).trans ⟨fun red => ⟨?_, ?_⟩, fun interior => ?_⟩
  · have lower : -x.a < -x.b := red.lower
    omega
  · intro edge
    rcases edge with ⟨same, positive⟩
    have : 0 ≤ -x.b := red.tie same
    omega
  · rcases interior with ⟨apart, edge⟩
    refine ⟨?_, ?_, le, fun same => ?_⟩
    · change -x.a < -x.b
      omega
    · change -x.b ≤ x.a
      omega
    · change x.a = x.c at same
      change 0 ≤ -x.b
      have : ¬0 < x.b := fun positive => edge ⟨same, positive⟩
      omega

theorem inv_reduced (hx : x.Reduced D) (interior : Interior x) : (inv_ x).Reduced D :=
  ⟨inv_valid hx.toValid, (inv_reduced_iff hx).mpr interior⟩

/-- Inverses in the class group are unique, and `inv_` finds them where it
returns a reduced element. -/
theorem inv_eq_of_op (hD : IsDiscriminant D) (hx : x.Reduced D) (hy : y.Reduced D)
    (interior : Interior x) (run : Returns (fun fuel => op_ R D fuel x y) (id_ D)) :
    inv_ x = y := by
  rcases op_returns R hD hx.toValid hy.toValid with ⟨z, returns, -, product⟩
  rw [returns.unique run] at product
  apply (inv_reduced hx interior).eq_of_similar hD hy
  have inverse := idealOf_mul_inv hD hx.toValid
  rw [idealOf_id] at inverse
  have one : SimilarIdeals (idealOf D x * idealOf D y) 1 := idealOf_id D ▸ product
  -- multiply the inverse by `x y`, which is principal, and cancel `x`
  have left := one.symm.mul (SimilarIdeals.refl (idealOf D (inv_ x)))
  have right := inverse.mul (SimilarIdeals.refl (idealOf D y))
  rw [one_mul] at left right
  rw [mul_right_comm] at left
  exact left.trans right

/-! ## Hashing -/

/-- The bytes of a triple determine it when those of an integer do. -/
theorem feed_injective [Hash ℤ] (free : Hash.PrefixFree ℤ) (same : Hash.feed x = Hash.feed y) :
    x = y := by
  change Hash.feed x.a ++ (Hash.feed x.b ++ Hash.feed x.c) =
    Hash.feed y.a ++ (Hash.feed y.b ++ Hash.feed y.c) at same
  rcases x with ⟨a, b, c⟩
  rcases y with ⟨a', b', c'⟩
  cases free _ _ _ _ same
  have same := List.append_cancel_left same
  cases free _ _ _ _ same
  have same := List.append_cancel_left same
  cases free c c' [] [] (by rw [List.append_nil, List.append_nil, same])
  rfl

/-! ## Compositions -/

/-- The elements obtained by composing the constructors and operations, where
`inv_` is applied to elements that satisfy `allowed`. -/
inductive Built (R : Rug) (D : ℤ) (allowed : ClassElem → Prop) : ClassElem → Prop
  | id : Built R D allowed (id_ D)
  | unknownOrderElem : Built R D allowed (unknownOrderElem_ D)
  | elem {abc : ℤ × ℤ × ℤ} {z : ClassElem} (run : Returns (fun fuel => elem D fuel abc) z) :
      Built R D allowed z
  | op {x y z : ClassElem} (left : Built R D allowed x) (right : Built R D allowed y)
      (run : Returns (fun fuel => op_ R D fuel x y) z) : Built R D allowed z
  | square {x z : ClassElem} (arg : Built R D allowed x)
      (run : Returns (fun fuel => square R D fuel x) z) : Built R D allowed z
  | exp {x z : ClassElem} {n : ℤ} (arg : Built R D allowed x)
      (run : Returns (fun fuel => exp_ R D fuel x n) z) : Built R D allowed z
  | inv {x : ClassElem} (arg : Built R D allowed x) (allows : allowed x) :
      Built R D allowed (inv_ x)

theorem Built.reduced (hD : IsDiscriminant D) (residue : D % 8 = 1) (large : D < -7)
    (built : Built R D Interior x) : x.Reduced D := by
  induction built with
  | id => exact id_reduced hD
  | unknownOrderElem => exact unknownOrderElem_reduced residue large
  | elem run =>
    rcases run.exists_eq with ⟨n, run⟩
    exact reduced_of_elem run
  | op _ _ run _ _ =>
    rcases run.exists_eq with ⟨n, run⟩
    exact reduced_of_op run
  | square _ run _ =>
    rcases run.exists_eq with ⟨n, run⟩
    exact reduced_of_square run
  | exp _ run _ =>
    rcases run.exists_eq with ⟨n, run⟩
    exact reduced_of_exp hD run
  | inv _ interior hx => exact inv_reduced hx interior

/-- While `inv_` stays off the boundary every element built is valid and reduced,
and equality of triples, of their bytes and of classes coincide. -/
theorem built_interior_invariant [Hash ℤ] (R : Rug) (D : ℤ) (hD : IsDiscriminant D)
    (residue : D % 8 = 1) (large : D < -7) :
    (∀ x, Built R D Interior x →
      0 < x.a ∧ discriminant x.a x.b x.c = D ∧ isReduced x.a x.b x.c = true ∧
        (isReduced (inv_ x).a (inv_ x).b (inv_ x).c = true ↔ Interior x)) ∧
    (∀ x y, Built R D Interior x → Built R D Interior y →
      (x = y ↔ x.form.Equivalent y.form) ∧
        (x.form.Equivalent y.form → Hash.feed x = Hash.feed y) ∧
        (Hash.PrefixFree ℤ → Hash.feed x = Hash.feed y → x.form.Equivalent y.form) ∧
        (Interior x → Returns (fun fuel => op_ R D fuel x y) (id_ D) → inv_ x = y)) := by
  refine ⟨fun x built => ?_, fun x y builtX builtY => ?_⟩
  · have hx := built.reduced hD residue large
    exact ⟨hx.a_pos, hx.disc, hx.reduced, inv_reduced_iff hx⟩
  · have hx := builtX.reduced hD residue large
    have hy := builtY.reduced hD residue large
    have classes := hx.eq_iff hy
    refine ⟨classes, fun eqv => congrArg Hash.feed (classes.mpr eqv), fun free same => ?_, ?_⟩
    · exact classes.mp (feed_injective free same)
    · exact inv_eq_of_op hD hx hy

open Sample in
theorem built_interior_invariant_neg_23 :
    (∀ x, Built Rug.gmp (-23) Interior x →
      0 < x.a ∧ discriminant x.a x.b x.c = -23 ∧ isReduced x.a x.b x.c = true ∧
        (isReduced (inv_ x).a (inv_ x).b (inv_ x).c = true ↔ Interior x)) ∧
    (∀ x y, Built Rug.gmp (-23) Interior x → Built Rug.gmp (-23) Interior y →
      (x = y ↔ x.form.Equivalent y.form) ∧
        (x.form.Equivalent y.form → Hash.feed x = Hash.feed y) ∧
        (Hash.PrefixFree ℤ → Hash.feed x = Hash.feed y → x.form.Equivalent y.form) ∧
        (Interior x → Returns (fun fuel => op_ Rug.gmp (-23) fuel x y) (id_ (-23)) →
          inv_ x = y)) :=
  built_interior_invariant Rug.gmp (-23) isDiscriminant_neg_23 (by decide) (by decide)

/-- The inverse of the identity, with the constant of the crate. -/
theorem inv_id_not_reduced :
    Built Rug.gmp CLASS_GROUP_DISCRIMINANT (fun _ => True)
        (inv_ (id_ CLASS_GROUP_DISCRIMINANT)) ∧
      isReduced (inv_ (id_ CLASS_GROUP_DISCRIMINANT)).a (inv_ (id_ CLASS_GROUP_DISCRIMINANT)).b
        (inv_ (id_ CLASS_GROUP_DISCRIMINANT)).c = false ∧
      inv_ (id_ CLASS_GROUP_DISCRIMINANT) ≠ id_ CLASS_GROUP_DISCRIMINANT :=
  ⟨.inv .id trivial, by decide, by decide⟩

end ClassGroup

end GroupAccumulator
