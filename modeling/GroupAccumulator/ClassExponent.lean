import GroupAccumulator.ClassGroupLaws
import GroupAccumulator.GroupDefaults

/-!
# Exponentiation in the class group

The class group replaces the default `exp_` by one that squares with a routine of its
own.  `square` solves one congruence modulo `a`, which needs `a` and `b` coprime.  They
are for a reduced element: a common factor divides the discriminant, whose negative is
a prime larger than `a` (`ClassElem.Reduced.coprime`).  The inverse of a reduced element
has the same `a` and `b` up to sign, and every square is reduced again, so the bases of
the loop stay coprime.

On them `square` composes the form with itself (`square_returns`), so it returns what
`op_` does, and the two loops go through the same states.
-/

namespace GroupAccumulator

open Theory BinaryForm

/-- Leading and middle coefficient are coprime, beside the form being valid. -/
structure ClassElem.Coprime (D : ℤ) (x : ClassElem) : Prop extends ClassElem.Valid D x where
  coprime : IsCoprime x.a x.b

namespace ClassGroup

variable {D : ℤ} {x y z : ClassElem} {R : Rug}

/-! ## Coprime coefficients -/

/-- The leading coefficient of a reduced element is smaller than the prime. -/
theorem a_lt_neg_disc (hx : x.Reduced D) : x.a < -D := by
  have positive := hx.a_pos
  have le : x.a ≤ x.c := hx.isReduced_form.le
  have window : |x.b| ≤ x.a := hx.isReduced_form.abs_b_le
  have disc : x.b * x.b - 4 * x.a * x.c = D := hx.disc
  have middle : x.b * x.b ≤ x.a * x.a := by
    rw [← abs_mul_abs_self x.b]
    exact mul_self_le_mul_self (abs_nonneg x.b) window
  have outer : x.a * x.a ≤ x.a * x.c := mul_le_mul_of_nonneg_left le positive.le
  have grows : x.a * 1 ≤ x.a * x.a := mul_le_mul_of_nonneg_left positive positive.le
  linarith

theorem coprime_of_reduced (hD : IsDiscriminant D) (hx : x.Reduced D) : x.Coprime D := by
  refine ⟨hx.toValid, ?_⟩
  have apart : ¬ -D ∣ x.a := fun divides =>
    not_lt_of_ge (Int.le_of_dvd hx.a_pos divides) (a_lt_neg_disc hx)
  have coprime : IsCoprime (-D) x.a := hD.prime.irreducible.coprime_iff_not_dvd.mpr apart
  obtain ⟨p, q, unit⟩ := coprime
  have disc : x.b * x.b - 4 * x.a * x.c = D := hx.disc
  refine ⟨4 * x.c * p + q, -(x.b * p), ?_⟩
  linear_combination unit - p * disc

theorem inv_coprime (hx : x.Coprime D) : (inv_ x).Coprime D :=
  ⟨inv_valid hx.toValid, hx.coprime.neg_right⟩

/-! ## Squares -/

/-- On coprime coefficients `square` never panics, and returns the reduced element in
the class of the square. -/
theorem square_returns (R : Rug) (hD : IsDiscriminant D) (hx : x.Coprime D) :
    ∃ z, Returns (fun fuel => square R D fuel x) z ∧ z.Reduced D ∧
      SimilarIdeals (idealOf D x * idealOf D x) (idealOf D z) := by
  have ha := hx.a_pos.ne'
  have unit : Int.gcd x.b x.a = 1 := Int.isCoprime_iff_gcd_eq_one.mp hx.coprime.symm
  have solvable : (Int.gcd x.b x.a : ℤ) ∣ x.c := by
    rw [unit]
    exact one_dvd x.c
  obtain ⟨mu, v, solve, -, n, solved⟩ := solveLinearCongruence_of_dvd R ha solvable
  have factors : x.form.Factors x.form 0 1 x.a x.a x.b := by
    obtain ⟨p, q, bezout⟩ := hx.coprime
    refine ⟨(one_mul x.a).symm, (one_mul x.a).symm, ?_, ?_, one_ne_zero, rfl, p, 0, q, ?_⟩
    · change x.b + x.b = 2 * (1 * x.b)
      ring
    · change x.b - x.b = 2 * 0
      ring
    · linear_combination bezout
  have comp := factors.composition (l := mu) (k := mu) (n := n) ha ha (by ring) (by
    change x.a * x.a * n = x.a * x.b * mu - 0 * x.b - x.c * x.a
    linear_combination (-x.a) * solved)
  rcases elem_of_composition hD hx.toValid hx.toValid comp one_ne_zero
    (mul_pos hx.a_pos hx.a_pos) with ⟨z, returns, hz, product⟩
  refine ⟨z, ?_, hz, product⟩
  have middle : x.b - 2 * x.a * mu = 1 * x.b - (mu * x.a + mu * x.a) := by ring
  have last : mu * mu - n = mu * mu - 1 * n := by ring
  simp only [square, solve, unwrap_some, Exec.ok_bind,
    divRemFloor_of_mul_eq ha solved.symm, middle, last]
  exact returns

/-- The dedicated routine squares as `op_` does. -/
theorem square_eq_op (R : Rug) (hD : IsDiscriminant D) (hx : x.Coprime D) :
    ∃ z, Returns (fun fuel => square R D fuel x) z ∧
      Returns (fun fuel => op_ R D fuel x x) z ∧ z.Reduced D := by
  rcases square_returns R hD hx with ⟨z, returns, hz, sim⟩
  exact ⟨z, returns, op_eq R hD hx.toValid hx.toValid hz sim, hz⟩

/-! ## The loops -/

/-- What the class group supplies to the default `exp_`. -/
def groupFns (R : Rug) (D : ℤ) : GroupFns ClassElem where
  id_ := .ok (id_ D)
  op_ := op_ R D
  inv_ x := .ok (inv_ x)

/-- The bases the loop of `exp_` goes through when it starts from `a`. -/
inductive Bases (R : Rug) (D : ℤ) (a : ClassElem) : ClassElem → Prop
  | start : Bases R D a a
  | square {y z : ClassElem} (base : Bases R D a y)
      (run : Returns (fun fuel => square R D fuel y) z) : Bases R D a z

theorem Bases.coprime (hD : IsDiscriminant D) (hx : x.Coprime D) (base : Bases R D x y) :
    y.Coprime D := by
  induction base with
  | start => exact hx
  | square base run hy =>
    rcases square_returns R hD hy with ⟨z, returns, hz, -⟩
    rw [run.unique returns]
    exact coprime_of_reduced hD hz

/-- From the same state both loops return the same element. -/
theorem expLoop_eq_default (R : Rug) (hD : IsDiscriminant D) {val a : ClassElem} {n : ℤ}
    (nonneg : 0 ≤ n) (hval : val.Valid D) (ha : a.Coprime D) :
    ∃ r, Returns (fun fuel => expLoop R D fuel val a n) r ∧
      Returns (fun fuel => (groupFns R D).expLoop fuel val a n) r := by
  induction hk : n.toNat using Nat.strong_induction_on generalizing n val a with
  | _ k ih =>
    rcases nonneg.eq_or_lt with rfl | positive
    · exact ⟨val, Returns.succ (Returns.of_eq fun _ => rfl),
        Returns.succ (Returns.of_eq fun _ => rfl)⟩
    · rcases square_eq_op R hD ha with ⟨squared, bySquare, byOp, hsquared⟩
      have ha' := coprime_of_reduced hD hsquared
      have half : (n / 2).toNat < k ∧ 0 ≤ n / 2 := by omega
      have multiplied : ∃ next : ClassElem, next.Valid D ∧ Returns (fun fuel =>
          if n % 2 = 1 then op_ R D fuel val a else pure val) next := by
        by_cases odd : n % 2 = 1
        · rcases op_returns R hD hval ha.toValid with ⟨next, returns, hnext, -⟩
          exact ⟨next, hnext.toValid, by simpa only [if_pos odd] using returns⟩
        · exact ⟨val, hval, Returns.of_eq fun _ => if_neg odd⟩
      rcases multiplied with ⟨next, hnext, multiply⟩
      rcases ih _ half.1 half.2 hnext ha' rfl with ⟨r, special, default⟩
      refine ⟨r, Returns.succ ?_, Returns.succ ?_⟩
      · simp only [expLoop, if_neg positive.ne']
        exact multiply.bind (bySquare.bind special)
      · simp only [GroupFns.expLoop, if_pos positive]
        exact multiply.bind (byOp.bind default)

/-- The class group's `exp_` returns, with the element the default `exp_` returns, for
every integer exponent; on each base its loop goes through `square` returns what `op_`
does. -/
theorem exp_eq_default (R : Rug) (D : ℤ) (x : ClassElem) (n : ℤ) (hD : IsDiscriminant D)
    (hx : x.Reduced D) :
    (∃ r, Returns (fun fuel => exp_ R D fuel x n) r ∧
      Returns (fun fuel => (groupFns R D).exp_ fuel x n) r) ∧
    ∀ y, Bases R D (if n < 0 then inv_ x else x) y →
      ∃ z, Returns (fun fuel => square R D fuel y) z ∧
        Returns (fun fuel => op_ R D fuel y y) z := by
  have hval := (id_reduced hD).toValid
  have hbase := coprime_of_reduced hD hx
  by_cases negative : n < 0
  · have hinv := inv_coprime hbase
    refine ⟨?_, fun y base => ?_⟩
    · simp only [exp_, GroupFns.exp_, if_pos negative]
      exact expLoop_eq_default R hD (by omega) hval hinv
    · rw [if_pos negative] at base
      rcases square_eq_op R hD (base.coprime hD hinv) with ⟨z, bySquare, byOp, -⟩
      exact ⟨z, bySquare, byOp⟩
  · refine ⟨?_, fun y base => ?_⟩
    · simp only [exp_, GroupFns.exp_, if_neg negative]
      exact expLoop_eq_default R hD (by omega) hval hbase
    · rw [if_neg negative] at base
      rcases square_eq_op R hD (base.coprime hD hbase) with ⟨z, bySquare, byOp, -⟩
      exact ⟨z, bySquare, byOp⟩

/-- A negative power of `(2, 1, 3)`, whose class has order three. -/
theorem exp_eq_default_neg_23 :
    (∃ r, Returns (fun fuel => exp_ Rug.gmp (-23) fuel ⟨2, 1, 3⟩ (-5)) r ∧
      Returns (fun fuel => (groupFns Rug.gmp (-23)).exp_ fuel ⟨2, 1, 3⟩ (-5)) r) ∧
    ∀ y, Bases Rug.gmp (-23) (inv_ ⟨2, 1, 3⟩) y →
      ∃ z, Returns (fun fuel => square Rug.gmp (-23) fuel y) z ∧
        Returns (fun fuel => op_ Rug.gmp (-23) fuel y y) z :=
  exp_eq_default Rug.gmp (-23) ⟨2, 1, 3⟩ (-5) isDiscriminant_neg_23 reduced_neg_23.1

end ClassGroup

end GroupAccumulator
