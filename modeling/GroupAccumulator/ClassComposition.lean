import GroupAccumulator.ClassReduction
import GroupAccumulator.Theory.FormFactors
import Mathlib.Tactic.NormNum.Prime

/-!
# Composition in the class group

On positive definite forms of discriminant `D`, reduced or not, `op_` never
panics.  `opVars_spec` follows its variables: the halves are exact because the
middle coefficients are odd, both congruences are solvable, and the floor
divisions are exact.  The triple it ends with is a Gauss composition, so the
result lies in the product of the two ideal classes (`op_similar`).

The discriminant need only be negative and `1` modulo `4` for `op_` to return;
that its negative is prime makes every form of it primitive.
-/

namespace GroupAccumulator

open Theory

/-- What the comment on the constant says of it. -/
structure IsDiscriminant (D : ℤ) : Prop where
  negative : D < 0
  prime : Prime (-D)
  residue : -D % 4 = 3

/-- A positive definite form of discriminant `D`, reduced or not. -/
structure ClassElem.Valid (D : ℤ) (x : ClassElem) : Prop where
  a_pos : 0 < x.a
  disc : ClassGroup.discriminant x.a x.b x.c = D

/-- Reduced, beside being valid. -/
structure ClassElem.Reduced (D : ℤ) (x : ClassElem) : Prop extends ClassElem.Valid D x where
  reduced : ClassGroup.isReduced x.a x.b x.c = true

/-- The order of discriminant `D` is that of `1 + 4 m` for this `m`. -/
def ClassGroup.orderParam (D : ℤ) : ℤ := (D - 1) / 4

theorem ClassGroup.orderParam_eq {D : ℤ} (hD : IsDiscriminant D) : 1 + 4 * orderParam D = D := by
  have := hD.residue
  unfold orderParam
  omega

/-! ## Elements and their forms -/

namespace ClassElem

open GroupAccumulator.ClassGroup

variable {D : ℤ} {x y z : ClassElem}

theorem Valid.form_disc (hx : x.Valid D) : x.form.disc = D :=
  discriminant_eq.symm.trans hx.disc

theorem Valid.ofDisc (hD : IsDiscriminant D) (hx : x.Valid D) :
    x.form.OfDisc (orderParam D) :=
  hx.form_disc.trans (orderParam_eq hD).symm

theorem Reduced.isReduced_form (hx : x.Reduced D) : x.form.IsReduced :=
  isReduced_iff.mp hx.reduced

theorem Reduced.of_form (red : z.form.IsReduced) (disc : z.form.disc = D) : z.Reduced D :=
  ⟨⟨red.pos, discriminant_eq.trans disc⟩, isReduced_iff.mpr red⟩

/-- The discriminant is squarefree, so its forms are primitive. -/
theorem Valid.primitive (hD : IsDiscriminant D) (hx : x.Valid D) : x.form.Primitive := by
  apply BinaryForm.primitive_of_squarefree
  rw [hx.form_disc]
  exact hD.prime.squarefree

/-- Middle coefficients are odd, so half their sum and difference are integers. -/
theorem Valid.exists_halves (hD : IsDiscriminant D) (hx : x.Valid D) (hy : y.Valid D) :
    ∃ half h, x.b + y.b = 2 * half ∧ y.b - x.b = 2 * h := by
  have oddX : x.b = 2 * ((x.b - 1) / 2) + 1 := (hx.ofDisc hD).b_eq
  have oddY : y.b = 2 * ((y.b - 1) / 2) + 1 := (hy.ofDisc hD).b_eq
  refine ⟨(x.b - 1) / 2 + (y.b - 1) / 2 + 1, (y.b - 1) / 2 - (x.b - 1) / 2, ?_, ?_⟩
  · linarith
  · linarith

end ClassElem

namespace ClassGroup

variable {D : ℤ} {x y z : ClassElem} {R : Rug}

/-! ## The variables of `op_` -/

/-- On valid forms both congruences are solved and every division is exact. -/
theorem opVars_spec (R : Rug) (hD : IsDiscriminant D) (hx : x.Valid D) (hy : y.Valid D) :
    ∃ vars, opVars R x y = .ok vars ∧
      x.form.Factors y.form vars.h vars.w vars.s vars.t vars.u ∧ 0 < vars.s ∧ 0 < vars.t ∧
      vars.s * vars.l = vars.k * vars.t - vars.h ∧
      vars.s * vars.t * vars.m = vars.t * vars.u * vars.k - vars.h * vars.u - x.c * vars.s := by
  obtain ⟨half, h, hhalf, hh⟩ := hx.exists_halves hD hy
  have same : x.form.disc = y.form.disc := (hx.form_disc).trans (hy.form_disc).symm
  rcases BinaryForm.Factors.of_gcd hhalf hh hx.a_pos.ne' same with ⟨s, t, u, fac, hu⟩
  have wPos : 0 < (Int.gcd (Int.gcd x.form.a y.form.a) half : ℤ) :=
    lt_of_le_of_ne (Int.natCast_nonneg _) fac.ne_zero.symm
  have hs : 0 < s := pos_of_mul_pos_right (fac.left_a ▸ hx.a_pos) wPos.le
  have ht : 0 < t := pos_of_mul_pos_right (fac.right_a ▸ hy.a_pos) wPos.le
  obtain ⟨mu, v, first, period, solved⟩ :=
    solveLinearCongruence_of_dvd R (mul_pos hs ht).ne' fac.first_solvable
  have hv := BinaryForm.eq_mul_gcd_of_period ht period
  obtain ⟨lambda, v', second, -, solved'⟩ := solveLinearCongruence_of_dvd R hs.ne'
    (fac.second_solvable hs.ne' hv solved ht.ne')
  rcases BinaryForm.exact_of_solved hv solved solved' with ⟨l, m, hl, hm⟩
  refine ⟨⟨h, _, s, t, u, mu + v * lambda, l, m⟩, ?_, fac, hs, ht, hl, hm⟩
  have divS : divRemFloor x.a (Int.gcd (Int.gcd x.a y.a) half) = .ok (s, 0) :=
    divRemFloor_of_mul_eq fac.ne_zero fac.left_a.symm
  have divT : divRemFloor y.a (Int.gcd (Int.gcd x.a y.a) half) = .ok (t, 0) :=
    divRemFloor_of_mul_eq fac.ne_zero fac.right_a.symm
  have divU : divRemFloor half (Int.gcd (Int.gcd x.a y.a) half) = .ok (u, 0) :=
    divRemFloor_of_mul_eq fac.ne_zero hu.symm
  have solveMu : solveLinearCongruence R (t * u) (h * u + s * x.c) (s * t) =
      .ok (some (mu, v)) := first
  have divM : divRemFloor (t * u * (mu + v * lambda) - h * u - x.c * s) (s * t) = .ok (m, 0) :=
    divRemFloor_of_mul_eq (mul_pos hs ht).ne' hm
  unfold opVars
  simp only [divRemFloor_of_mul_eq two_ne_zero hhalf.symm,
    divRemFloor_of_mul_eq two_ne_zero hh.symm, divS, divT, divU, solveMu, second,
    divRemFloor_of_mul_eq hs.ne' hl, divM, unwrap_some, Exec.ok_bind]
  rfl

/-! ## The result of `op_` -/

/-- Of a composed form `elem` makes the reduced element in the product of the ideal classes. -/
theorem elem_of_composition {f : BinaryForm} {w s t u k l n : ℤ} (hD : IsDiscriminant D)
    (hx : x.Valid D) (hy : y.Valid D) (comp : x.form.Composition y.form f w s t u k l n)
    (hw : w ≠ 0) (hf : 0 < f.a) :
    ∃ z, Returns (fun fuel => elem D fuel (f.a, f.b, f.c)) z ∧ z.Reduced D ∧
      SimilarIdeals (x.form.ideal (orderParam D) * y.form.ideal (orderParam D))
        (z.form.ideal (orderParam D)) := by
  have disc := comp.disc_eq.trans hx.form_disc
  have pos : f.PosDef := ⟨hf, disc.trans_lt hD.negative⟩
  rcases elem_returns pos disc with ⟨z, returns, reduced, eqv⟩
  have hz := ClassElem.Reduced.of_form reduced (eqv.disc_eq.trans disc)
  have ofDisc := disc.trans (orderParam_eq hD).symm
  have product := comp.similar (hx.ofDisc hD) (hy.ofDisc hD) ofDisc (hx.primitive hD) hw
  have same := BinaryForm.similar_of_equivalent (hz.toValid.ofDisc hD) ofDisc hz.a_pos.ne' hf.ne'
    eqv
  exact ⟨z, returns, hz, product.trans same.symm⟩

/-- On valid forms `op_` returns a reduced element in the product of their
ideal classes. -/
theorem op_returns (R : Rug) (hD : IsDiscriminant D) (hx : x.Valid D) (hy : y.Valid D) :
    ∃ z, Returns (fun fuel => op_ R D fuel x y) z ∧ z.Reduced D ∧
      SimilarIdeals (x.form.ideal (orderParam D) * y.form.ideal (orderParam D))
        (z.form.ideal (orderParam D)) := by
  rcases opVars_spec R hD hx hy with ⟨vars, run, fac, hs, ht, hl, hm⟩
  rcases vars with ⟨h, w, s, t, u, k, l, m⟩
  have comp := fac.composition hs.ne' ht.ne' hl hm
  rcases elem_of_composition hD hx hy comp fac.ne_zero (mul_pos hs ht) with
    ⟨z, returns, hz, product⟩
  refine ⟨z, ?_, hz, product⟩
  simp only [op_, run]
  exact returns

/-- On valid forms, reduced or not, `op_` returns a reduced element of
discriminant `D`; on the way both congruences are solved, no divisor is zero
and every floor division is exact. -/
theorem op_total (R : Rug) (D : ℤ) (x y : ClassElem) (hD : IsDiscriminant D) (hx : x.Valid D)
    (hy : y.Valid D) :
    (∃ vars, opVars R x y = .ok vars ∧ vars.w ≠ 0 ∧ vars.s ≠ 0 ∧ vars.t ≠ 0 ∧
      x.b + y.b = 2 * (vars.w * vars.u) ∧ y.b - x.b = 2 * vars.h ∧
      x.a = vars.w * vars.s ∧ y.a = vars.w * vars.t ∧
      vars.k * vars.t - vars.h = vars.s * vars.l ∧
      vars.t * vars.u * vars.k - vars.h * vars.u - x.c * vars.s =
        vars.s * vars.t * vars.m) ∧
    ∃ z, Returns (fun fuel => op_ R D fuel x y) z ∧ 0 < z.a ∧
      discriminant z.a z.b z.c = D ∧ isReduced z.a z.b z.c = true := by
  rcases opVars_spec R hD hx hy with ⟨vars, run, fac, hs, ht, hl, hm⟩
  rcases op_returns R hD hx hy with ⟨z, returns, hz, -⟩
  exact ⟨⟨vars, run, fac.ne_zero, hs.ne', ht.ne', fac.mid, fac.diff, fac.left_a, fac.right_a,
    hl.symm, hm.symm⟩, z, returns, hz.a_pos, hz.disc, hz.reduced⟩

theorem isDiscriminant_neg_23 : IsDiscriminant (-23) :=
  ⟨by decide, Nat.prime_iff_prime_int.mp (by norm_num), by decide⟩

/-- A reduced form and one that is not, of discriminant `-23`. -/
theorem op_total_neg_23 :
    (∃ vars, opVars Rug.gmp ⟨2, 1, 3⟩ ⟨2, -3, 4⟩ = .ok vars ∧
      vars.w ≠ 0 ∧ vars.s ≠ 0 ∧ vars.t ≠ 0 ∧
      1 + -3 = 2 * (vars.w * vars.u) ∧ -3 - 1 = 2 * vars.h ∧
      2 = vars.w * vars.s ∧ 2 = vars.w * vars.t ∧
      vars.k * vars.t - vars.h = vars.s * vars.l ∧
      vars.t * vars.u * vars.k - vars.h * vars.u - 3 * vars.s = vars.s * vars.t * vars.m) ∧
    ∃ z, Returns (fun fuel => op_ Rug.gmp (-23) fuel ⟨2, 1, 3⟩ ⟨2, -3, 4⟩) z ∧ 0 < z.a ∧
      discriminant z.a z.b z.c = -23 ∧ isReduced z.a z.b z.c = true :=
  op_total Rug.gmp (-23) ⟨2, 1, 3⟩ ⟨2, -3, 4⟩ isDiscriminant_neg_23 ⟨by decide, by decide⟩
    ⟨by decide, by decide⟩

end ClassGroup

end GroupAccumulator
