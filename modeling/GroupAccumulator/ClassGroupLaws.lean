import GroupAccumulator.ClassComposition

/-!
# The laws of the class group

A reduced element is determined by the class of its ideal, and `op_` returns the
reduced element of the product class (`op_eq`).  So each law of `op_` is the law
of ideals it stands for, whatever intermediate triples the two sides go through
and whether or not an inverse on the boundary of the reduced domain is reduced.
-/

namespace GroupAccumulator

open Theory BinaryForm

/-! ## Reduced elements and their ideals -/

/-- The ideal of a class group element. -/
def ClassGroup.idealOf (D : ℤ) (x : ClassElem) : Ideal (Order (orderParam D)) :=
  ideal (orderParam D) x.form

open GroupAccumulator.ClassGroup in
theorem ClassElem.Reduced.eq_of_similar {D : ℤ} {x y : ClassElem} (hD : IsDiscriminant D)
    (hx : x.Reduced D) (hy : y.Reduced D)
    (sim : SimilarIdeals (idealOf D x) (idealOf D y)) : x = y := by
  have negative : 1 + 4 * orderParam D < 0 := (orderParam_eq hD).trans_lt hD.negative
  have formX := hx.toValid.ofDisc hD
  have formY := hy.toValid.ofDisc hD
  exact form_injective
    (BinaryForm.eq_of_similar formX formY negative hx.isReduced_form hy.isReduced_form sim)

namespace ClassGroup

variable {D : ℤ} {x y z r : ClassElem} {R : Rug}

/-- The reduced element of the product class is what `op_` returns. -/
theorem op_eq (R : Rug) (hD : IsDiscriminant D) (hx : x.Valid D) (hy : y.Valid D)
    (hr : r.Reduced D) (sim : SimilarIdeals (idealOf D x * idealOf D y) (idealOf D r)) :
    Returns (fun fuel => op_ R D fuel x y) r := by
  rcases op_returns R hD hx hy with ⟨z, returns, hz, product⟩
  rw [← hz.eq_of_similar hD hr (product.symm.trans sim)]
  exact returns

/-- `op_` depends on the classes of its arguments only. -/
theorem op_congr (R : Rug) {x' y' : ClassElem} (hD : IsDiscriminant D) (hx : x.Valid D)
    (hx' : x'.Valid D) (hy : y.Valid D) (hy' : y'.Valid D)
    (left : x.form.Equivalent x'.form) (right : y.form.Equivalent y'.form) :
    ∃ r, Returns (fun fuel => op_ R D fuel x y) r ∧ Returns (fun fuel => op_ R D fuel x' y') r := by
  rcases op_returns R hD hx hy with ⟨r, returns, hr, sim⟩
  refine ⟨r, returns, op_eq R hD hx' hy' hr ?_⟩
  have simX := similar_of_equivalent (hx.ofDisc hD) (hx'.ofDisc hD) hx.a_pos.ne' hx'.a_pos.ne' left
  have simY := similar_of_equivalent (hy.ofDisc hD) (hy'.ofDisc hD) hy.a_pos.ne' hy'.a_pos.ne' right
  exact (simX.mul simY).symm.trans sim

/-! ## The identity and inverses -/

theorem id_reduced (hD : IsDiscriminant D) : (id_ D).Reduced D := by
  have negative := hD.negative
  have residue := hD.residue
  have quotient : (1 - D).fdiv 4 = (1 - D) / 4 := Int.fdiv_eq_ediv_of_nonneg _ (by norm_num)
  have c_eq : (id_ D).form.c = (1 - D) / 4 := quotient
  apply ClassElem.Reduced.of_form
  · refine ⟨(by decide : (-1 : ℤ) < 1), le_refl (1 : ℤ), ?_, fun _ => Int.one_nonneg⟩
    change 1 ≤ (id_ D).form.c
    omega
  · unfold disc
    rw [c_eq]
    change (1 : ℤ) ^ 2 - 4 * 1 * ((1 - D) / 4) = D
    omega

theorem idealOf_id (D : ℤ) : idealOf D (id_ D) = 1 := ideal_eq_one rfl

theorem inv_valid (hx : x.Valid D) : (inv_ x).Valid D := by
  refine ⟨hx.a_pos, ?_⟩
  rw [← hx.disc]
  unfold discriminant inv_
  ring

/-- An element and its inverse have inverse ideals, reduced or not. -/
theorem idealOf_mul_inv (hD : IsDiscriminant D) (hx : x.Valid D) :
    SimilarIdeals (idealOf D x * idealOf D (inv_ x)) (idealOf D (id_ D)) := by
  have product := ideal_mul_ideal_opposite (hx.ofDisc hD) (hx.primitive hD)
  rw [idealOf_id]
  apply SimilarIdeals.of_eq_span_mul (intCast_mem_nonZeroDivisors hx.a_pos.ne')
  rw [mul_one]
  exact product

/-! ## The laws -/

/-- Both ways of composing three reduced elements return the same triple. -/
theorem op_associative (R : Rug) (D : ℤ) (x y z : ClassElem) (hD : IsDiscriminant D)
    (hx : x.Reduced D) (hy : y.Reduced D) (hz : z.Reduced D) :
    ∃ xy yz r, Returns (fun fuel => op_ R D fuel x y) xy ∧
      Returns (fun fuel => op_ R D fuel y z) yz ∧
      Returns (fun fuel => op_ R D fuel xy z) r ∧ Returns (fun fuel => op_ R D fuel x yz) r := by
  rcases op_returns R hD hx.toValid hy.toValid with ⟨xy, runXy, hxy, simXy⟩
  rcases op_returns R hD hy.toValid hz.toValid with ⟨yz, runYz, hyz, simYz⟩
  rcases op_returns R hD hxy.toValid hz.toValid with ⟨r, runR, hr, simR⟩
  refine ⟨xy, yz, r, runXy, runYz, runR, op_eq R hD hx.toValid hyz.toValid hr ?_⟩
  have right : SimilarIdeals (idealOf D x * idealOf D yz)
      (idealOf D x * (idealOf D y * idealOf D z)) := (SimilarIdeals.refl _).mul simYz.symm
  have left : SimilarIdeals (idealOf D x * idealOf D y * idealOf D z)
      (idealOf D xy * idealOf D z) := simXy.mul (SimilarIdeals.refl _)
  rw [← mul_assoc] at right
  exact right.trans (left.trans simR)

/-- `op_` is commutative, `id_` its identity and `inv_` its inverse. -/
theorem op_commutative_identity_inverse (R : Rug) (D : ℤ) (x y : ClassElem)
    (hD : IsDiscriminant D) (hx : x.Reduced D) (hy : y.Reduced D) :
    (∃ r, Returns (fun fuel => op_ R D fuel x y) r ∧ Returns (fun fuel => op_ R D fuel y x) r) ∧
      Returns (fun fuel => op_ R D fuel x (id_ D)) x ∧
      Returns (fun fuel => op_ R D fuel (id_ D) x) x ∧
      Returns (fun fuel => op_ R D fuel x (inv_ x)) (id_ D) ∧
      Returns (fun fuel => op_ R D fuel (inv_ x) x) (id_ D) := by
  have one := id_reduced hD
  have inverse := idealOf_mul_inv hD hx.toValid
  refine ⟨?_, ?_, ?_, ?_, ?_⟩
  · rcases op_returns R hD hx.toValid hy.toValid with ⟨r, run, hr, sim⟩
    refine ⟨r, run, op_eq R hD hy.toValid hx.toValid hr ?_⟩
    rw [mul_comm]
    exact sim
  · apply op_eq R hD hx.toValid one.toValid hx
    rw [idealOf_id, mul_one]
    exact .refl _
  · apply op_eq R hD one.toValid hx.toValid hx
    rw [idealOf_id, one_mul]
    exact .refl _
  · exact op_eq R hD hx.toValid (inv_valid hx.toValid) one inverse
  · apply op_eq R hD (inv_valid hx.toValid) hx.toValid one
    rw [mul_comm]
    exact inverse

/-- Composition is well defined on classes, whatever forms stand for them; the inverse
of an element composes as its reduction does. -/
theorem op_well_defined (R : Rug) (D : ℤ) (f f' h : ClassElem) (hD : IsDiscriminant D)
    (hf : f.Valid D) (hf' : f'.Valid D) (hh : h.Valid D) (eqv : f.form.Equivalent f'.form) :
    (∃ r, Returns (fun fuel => op_ R D fuel f h) r ∧ Returns (fun fuel => op_ R D fuel f' h) r) ∧
    (∃ r, Returns (fun fuel => op_ R D fuel h f) r ∧ Returns (fun fuel => op_ R D fuel h f') r) ∧
    ∃ y, Returns (fun fuel => elem D fuel ((inv_ f).a, (inv_ f).b, (inv_ f).c)) y ∧
      (∃ r, Returns (fun fuel => op_ R D fuel (inv_ f) h) r ∧
        Returns (fun fuel => op_ R D fuel y h) r) ∧
      ∃ r, Returns (fun fuel => op_ R D fuel h (inv_ f)) r ∧
        Returns (fun fuel => op_ R D fuel h y) r := by
  have hinv := inv_valid hf
  have pos : (inv_ f).form.PosDef := ⟨hinv.a_pos, hinv.form_disc.trans_lt hD.negative⟩
  rcases elem_returns pos hinv.form_disc with ⟨y, returns, reduced, eqvY⟩
  have hy := ClassElem.Reduced.of_form reduced (eqvY.disc_eq.trans hinv.form_disc)
  refine ⟨?_, ?_, y, returns, ?_, ?_⟩
  · exact op_congr R hD hf hf' hh hh eqv (.refl _)
  · exact op_congr R hD hh hh hf hf' (.refl _) eqv
  · exact op_congr R hD hinv hy.toValid hh hh eqvY.symm (.refl _)
  · exact op_congr R hD hh hh hinv hy.toValid (.refl _) eqvY.symm

/-! ## Discriminant `-23` -/

theorem reduced_neg_23 :
    ClassElem.Reduced (-23) ⟨2, 1, 3⟩ ∧ ClassElem.Reduced (-23) ⟨2, -1, 3⟩ :=
  ⟨⟨⟨by decide, by decide⟩, by decide⟩, ⟨⟨by decide, by decide⟩, by decide⟩⟩

theorem op_associative_neg_23 :
    ∃ xy yz r, Returns (fun fuel => op_ Rug.gmp (-23) fuel ⟨2, 1, 3⟩ ⟨2, 1, 3⟩) xy ∧
      Returns (fun fuel => op_ Rug.gmp (-23) fuel ⟨2, 1, 3⟩ ⟨2, -1, 3⟩) yz ∧
      Returns (fun fuel => op_ Rug.gmp (-23) fuel xy ⟨2, -1, 3⟩) r ∧
      Returns (fun fuel => op_ Rug.gmp (-23) fuel ⟨2, 1, 3⟩ yz) r :=
  op_associative Rug.gmp (-23) ⟨2, 1, 3⟩ ⟨2, 1, 3⟩ ⟨2, -1, 3⟩ isDiscriminant_neg_23
    reduced_neg_23.1 reduced_neg_23.1 reduced_neg_23.2

/-- The reduced form `(2, 1, 3)` and the form `(2, -3, 4)` of its class. -/
theorem op_well_defined_neg_23 :
    (∃ r, Returns (fun fuel => op_ Rug.gmp (-23) fuel ⟨2, -3, 4⟩ ⟨2, -1, 3⟩) r ∧
      Returns (fun fuel => op_ Rug.gmp (-23) fuel ⟨2, 1, 3⟩ ⟨2, -1, 3⟩) r) ∧
    (∃ r, Returns (fun fuel => op_ Rug.gmp (-23) fuel ⟨2, -1, 3⟩ ⟨2, -3, 4⟩) r ∧
      Returns (fun fuel => op_ Rug.gmp (-23) fuel ⟨2, -1, 3⟩ ⟨2, 1, 3⟩) r) ∧
    ∃ y, Returns (fun fuel => elem (-23) fuel (2, 3, 4)) y ∧
      (∃ r, Returns (fun fuel => op_ Rug.gmp (-23) fuel ⟨2, 3, 4⟩ ⟨2, -1, 3⟩) r ∧
        Returns (fun fuel => op_ Rug.gmp (-23) fuel y ⟨2, -1, 3⟩) r) ∧
      ∃ r, Returns (fun fuel => op_ Rug.gmp (-23) fuel ⟨2, -1, 3⟩ ⟨2, 3, 4⟩) r ∧
        Returns (fun fuel => op_ Rug.gmp (-23) fuel ⟨2, -1, 3⟩ y) r :=
  op_well_defined Rug.gmp (-23) ⟨2, -3, 4⟩ ⟨2, 1, 3⟩ ⟨2, -1, 3⟩ isDiscriminant_neg_23
    ⟨by decide, by decide⟩ reduced_neg_23.1.toValid reduced_neg_23.2.toValid
    ⟨1, -1, 0, 1, ⟨by decide, by decide, by decide, by decide⟩⟩

/-- The identity itself lies on the boundary: its inverse is not reduced. -/
theorem op_commutative_identity_inverse_neg_23 :
    (∃ r, Returns (fun fuel => op_ Rug.gmp (-23) fuel (id_ (-23)) ⟨2, 1, 3⟩) r ∧
        Returns (fun fuel => op_ Rug.gmp (-23) fuel ⟨2, 1, 3⟩ (id_ (-23))) r) ∧
      Returns (fun fuel => op_ Rug.gmp (-23) fuel (id_ (-23)) (id_ (-23))) (id_ (-23)) ∧
      Returns (fun fuel => op_ Rug.gmp (-23) fuel (id_ (-23)) (id_ (-23))) (id_ (-23)) ∧
      Returns (fun fuel => op_ Rug.gmp (-23) fuel (id_ (-23)) (inv_ (id_ (-23)))) (id_ (-23)) ∧
      Returns (fun fuel => op_ Rug.gmp (-23) fuel (inv_ (id_ (-23))) (id_ (-23))) (id_ (-23)) :=
  op_commutative_identity_inverse Rug.gmp (-23) (id_ (-23)) ⟨2, 1, 3⟩ isDiscriminant_neg_23
    (id_reduced isDiscriminant_neg_23) reduced_neg_23.1

end ClassGroup

end GroupAccumulator
