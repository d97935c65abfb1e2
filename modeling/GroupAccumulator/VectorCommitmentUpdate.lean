import GroupAccumulator.VectorCommitment

/-!
# When an update's own proof is accepted

`update` computes the nonmembership half of its proof against the accumulator
that already holds the new true bits, from the set the caller passes.  With `s`
the product over that set, `o` over the true bits, `x` over the false bits and
`a * x + b * s = 1`, the verifier compares `g` to the power `a * x + b * (s * o)`
with `g` when the caller passes the set of the old commitment.

`accepts_iff` is the resulting condition, `g ^ (b * s * (o - 1)) = 1`.  Over all
cofactors it says that the true bits do not change the commitment; for the
cofactors GMP returns, and `g` of infinite order, that there are no true bits,
or no false bits beside a non-empty set.  With the set of the new commitment the
proof is always accepted (`accepts_new_set`).
-/

namespace GroupAccumulator.VectorCommitment

open Accumulator Theory

section

variable {E : Type} [AbelianUnknownOrderGroup E] [DecidableEq E] [Hash E] [Hash ℤ]

/-- The update returns, and the new commitment accepts the proof it returned. -/
def Accepts (R : Rug) (H : Hashing) (vc : VectorCommitment E) (accSet : List ℤ)
    (bits : List (Bool × ℤ)) : Prop :=
  ∃ vc' proof, vc.update R H accSet bits = .ok (vc', proof) ∧ vc'.verify H bits proof = true

variable {R : Rug} {H : Hashing} {vc : VectorCommitment E} {S accSet : List ℤ}
variable {bits : List (Bool × ℤ)}

/-! ## The condition for given cofactors -/

/-- The proof is made from the cofactors of `accSet`, about the commitment to `S`. -/
theorem accepts_iff_exponent (commits : vc.acc.value = exp unknownOrderElem (H.primeHashProduct S))
    (distinct : (indices bits).Nodup)
    (coprime : IsCoprime (H.primeHashProduct (indicesOf false bits)) (H.primeHashProduct accSet)) :
    Accepts R H vc accSet bits ↔ (unknownOrderElem : E) ^
      ((cofactors R H accSet bits).1 * H.primeHashProduct (indicesOf false bits) +
        (cofactors R H accSet bits).2 *
          (H.primeHashProduct S * H.primeHashProduct (indicesOf true bits))) =
      unknownOrderElem := by
  rw [zpow_add, mul_comm (Prod.snd _), zpow_mul _ (_ * _), zpow_mul _ (H.primeHashProduct S),
    ← exp_eq_zpow _ (H.primeHashProduct S), ← commits, ← verify_update distinct]
  refine ⟨fun accepted => ?_, fun accepted => ⟨_, _, update_eq_ok distinct coprime, accepted⟩⟩
  rcases accepted with ⟨vc', proof, run, accepted⟩
  rw [update_eq_ok distinct coprime] at run
  cases run
  exact accepted

theorem cofactors_bezout
    (coprime : IsCoprime (H.primeHashProduct (indicesOf false bits)) (H.primeHashProduct accSet)) :
    (cofactors R H accSet bits).1 * H.primeHashProduct (indicesOf false bits) +
      (cofactors R H accSet bits).2 * H.primeHashProduct accSet = 1 :=
  R.bezout_of_gcd_eq_one (R.gcd_eq_one_iff.mpr coprime)

/-- With the set of the old commitment. -/
theorem accepts_iff (commits : vc.acc.value = exp unknownOrderElem (H.primeHashProduct S))
    (distinct : (indices bits).Nodup)
    (coprime : IsCoprime (H.primeHashProduct (indicesOf false bits)) (H.primeHashProduct S)) :
    Accepts R H vc S bits ↔ (unknownOrderElem : E) ^
      ((cofactors R H S bits).2 * (H.primeHashProduct S *
        (H.primeHashProduct (indicesOf true bits) - 1))) = 1 := by
  have bez := cofactors_bezout (R := R) coprime
  have exponents :
      (cofactors R H S bits).1 * H.primeHashProduct (indicesOf false bits) +
          (cofactors R H S bits).2 *
            (H.primeHashProduct S * H.primeHashProduct (indicesOf true bits)) =
        1 + (cofactors R H S bits).2 * (H.primeHashProduct S *
          (H.primeHashProduct (indicesOf true bits) - 1)) := by
    linear_combination bez
  rw [accepts_iff_exponent commits distinct coprime, exponents, zpow_add, zpow_one]
  exact mul_eq_left

/-- With the set of the new commitment there is no condition. -/
theorem accepts_new_set (commits : vc.acc.value = exp unknownOrderElem (H.primeHashProduct S))
    (distinct : (indices bits).Nodup)
    (coprime : IsCoprime (H.primeHashProduct (indicesOf false bits))
      (H.primeHashProduct (S ++ indicesOf true bits))) :
    Accepts R H vc (S ++ indicesOf true bits) bits := by
  have bez := cofactors_bezout (R := R) coprime
  rw [accepts_iff_exponent commits distinct coprime, ← Hashing.primeHashProduct_append, bez,
    zpow_one]

/-! ## All choices of cofactors -/

/-- Other cofactors of the same gcd. -/
def shifted (R : Rug) : Rug where
  gcdCofactors x y :=
    ((R.gcdCofactors x y).1, (R.gcdCofactors x y).2.1 - y, (R.gcdCofactors x y).2.2 + x)
  gcd_eq := R.gcd_eq
  bezout x y := by
    rw [← R.bezout x y]
    ring

/-- Whatever the cofactors, the true bits must not change the commitment. -/
theorem accepts_all_iff (commits : vc.acc.value = exp unknownOrderElem (H.primeHashProduct S))
    (distinct : (indices bits).Nodup)
    (coprime : IsCoprime (H.primeHashProduct (indicesOf false bits)) (H.primeHashProduct S)) :
    (∀ R, Accepts R H vc S bits) ↔
      exp vc.acc.value (H.primeHashProduct (indicesOf true bits)) = vc.acc.value := by
  let o := H.primeHashProduct (indicesOf true bits)
  have unchanged : exp vc.acc.value o = vc.acc.value ↔
      (unknownOrderElem : E) ^ (H.primeHashProduct S * (o - 1)) = 1 := by
    rw [commits, exp_eq_zpow, exp_eq_zpow, ← zpow_mul, mul_sub, mul_one, zpow_sub]
    exact mul_inv_eq_one.symm
  refine Iff.trans ⟨fun accepted => ?_, fun still R => ?_⟩ unchanged.symm
  · -- two choices of `b` differ by the product over the false bits, coprime to either
    have one := (accepts_iff commits distinct coprime).mp (accepted Rug.gmp)
    have two := (accepts_iff commits distinct coprime).mp (accepted (shifted Rug.gmp))
    have bez := cofactors_bezout (R := Rug.gmp) coprime
    have apart : IsCoprime (cofactors Rug.gmp H S bits).2
        (H.primeHashProduct (indicesOf false bits)) :=
      ⟨H.primeHashProduct S, (cofactors Rug.gmp H S bits).1, by linear_combination bez⟩
    change (unknownOrderElem : E) ^ (((cofactors Rug.gmp H S bits).2 +
      H.primeHashProduct (indicesOf false bits)) * _) = 1 at two
    rw [add_mul, zpow_add, one, one_mul, mul_comm, zpow_mul] at two
    rw [mul_comm, zpow_mul] at one
    exact eq_one_of_coprime_zpow apart one two
  · rw [accepts_iff commits distinct coprime, mul_comm, zpow_mul, still, one_zpow]

/-! ## The cofactors GMP returns -/

/-- For a generator of infinite order and GMP's cofactors, there must be no true
bits, or no false ones beside a set that is not empty. -/
theorem accepts_gmp_iff (commits : vc.acc.value = exp unknownOrderElem (H.primeHashProduct S))
    (distinct : (indices bits).Nodup)
    (coprime : IsCoprime (H.primeHashProduct (indicesOf false bits)) (H.primeHashProduct S))
    (positive : ∀ i ∈ S ++ indices bits, 0 < H.hashToPrime i)
    (prime : ∀ i ∈ S ++ indices bits, Prime (H.hashToPrime i))
    (infinite : ∀ n : ℤ, exp (unknownOrderElem : E) n = GroupTrait.id → n = 0) :
    Accepts Rug.gmp H vc S bits ↔
      indicesOf true bits = [] ∨ (indicesOf false bits = [] ∧ S ≠ []) := by
  have written {bit : Bool} {i : ℤ} (member : i ∈ indicesOf bit bits) : i ∈ S ++ indices bits :=
    List.mem_append_right S (mem_indices_of_mem_indicesOf member)
  have set {i : ℤ} (member : i ∈ S) : i ∈ S ++ indices bits := List.mem_append_left _ member
  have falsePos : 0 < H.primeHashProduct (indicesOf false bits) :=
    H.primeHashProduct_pos fun i member => positive i (written member)
  have setPos : 0 < H.primeHashProduct S :=
    H.primeHashProduct_pos fun i member => positive i (set member)
  have noWrite (bit : Bool) :
      H.primeHashProduct (indicesOf bit bits) = 1 ↔ indicesOf bit bits = [] :=
    H.primeHashProduct_eq_one_iff fun i member => prime i (written member)
  have noSet : H.primeHashProduct S = 1 ↔ S = [] :=
    H.primeHashProduct_eq_one_iff fun i member => prime i (set member)
  have torsion {n : ℤ} : (unknownOrderElem : E) ^ n = 1 ↔ n = 0 :=
    ⟨infinite n, fun zero => by rw [zero, zpow_zero]⟩
  have cofactor : (cofactors Rug.gmp H S bits).2 = 0 ↔
      H.primeHashProduct (indicesOf false bits) = 1 ∧ H.primeHashProduct S ≠ 1 :=
    gmpGcdext_snd_eq_zero_iff falsePos setPos coprime
  rw [accepts_iff commits distinct coprime, torsion, mul_eq_zero, mul_eq_zero, sub_eq_zero,
    or_iff_right setPos.ne', cofactor, noWrite, noWrite, Ne, noSet]
  exact or_comm

/-! ## The update of fresh indices -/

/-- Fresh indices are always written.  The new commitment accepts the proof of it
under the conditions above: for one choice of cofactors, for all of them, and
for those of GMP where `g` has infinite order. -/
theorem update_fresh_iff (R : Rug) (H : Hashing) (vc : VectorCommitment E) (S : List ℤ)
    (bits : List (Bool × ℤ))
    (commits : vc.acc.value = exp unknownOrderElem (H.primeHashProduct S))
    (separates : H.Separates {i | i ∈ S ++ indices bits}) (distinct : (indices bits).Nodup)
    (fresh : ∀ i ∈ indices bits, i ∉ S) :
    (∃ vc' proof, vc.update R H S bits = .ok (vc', proof)) ∧
      (Accepts R H vc S bits ↔
        exp (unknownOrderElem : E) ((cofactors R H S bits).2 * (H.primeHashProduct S *
          (H.primeHashProduct (indicesOf true bits) - 1))) = GroupTrait.id) ∧
      ((∀ R, Accepts R H vc S bits) ↔
        exp vc.acc.value (H.primeHashProduct (indicesOf true bits)) = vc.acc.value) ∧
      ((∀ n : ℤ, exp (unknownOrderElem : E) n = GroupTrait.id → n = 0) →
        (Accepts Rug.gmp H vc S bits ↔
          indicesOf true bits = [] ∨ (indicesOf false bits = [] ∧ S ≠ []))) := by
  have written {i : ℤ} (zero : i ∈ indicesOf false bits) : i ∈ indices bits :=
    mem_indices_of_mem_indicesOf zero
  have coprime : IsCoprime (H.primeHashProduct (indicesOf false bits)) (H.primeHashProduct S) := by
    apply Hashing.Separates.coprime_products
    · apply separates.mono
      intro i member
      cases List.mem_append.mp member with
      | inl set => exact List.mem_append_left _ set
      | inr zero => exact List.mem_append_right S (written zero)
    · intro i zero
      exact fresh i (written zero)
  exact ⟨⟨_, _, update_eq_ok distinct coprime⟩, accepts_iff commits distinct coprime,
    accepts_all_iff commits distinct coprime,
    accepts_gmp_iff commits distinct coprime separates.positive separates.prime⟩

end

open Sample in
/-- Beside the index `0`, over the infinite cyclic group: a true bit and a false one are written
together with a proof that is rejected, each alone with one that is accepted. -/
theorem update_fresh_iff_mixed_bits :
    let vc : VectorCommitment Cyclic := ⟨⟨⟨5⟩⟩⟩
    (∃ vc' proof, vc.update Rug.gmp Hashing.sample [0] [(true, 1), (false, 2)] =
        .ok (vc', proof)) ∧
      ¬ Accepts Rug.gmp Hashing.sample vc [0] [(true, 1), (false, 2)] ∧
      Accepts Rug.gmp Hashing.sample vc [0] [(true, 1)] ∧
      ∀ R, Accepts R Hashing.sample vc [0] [(false, 2)] := by
  intro vc
  have commits : vc.acc.value =
      exp unknownOrderElem (Hashing.sample.primeHashProduct [(0 : ℤ)]) := by decide
  obtain ⟨written, -, -, mixed⟩ := update_fresh_iff Rug.gmp Hashing.sample vc [0]
    [(true, 1), (false, 2)] commits (Hashing.sample_separates_indices (by decide)) (by decide)
    (by decide)
  obtain ⟨-, -, -, ones⟩ := update_fresh_iff Rug.gmp Hashing.sample vc [0]
    [(true, 1)] commits (Hashing.sample_separates_indices (by decide)) (by decide) (by decide)
  obtain ⟨-, -, zeros, -⟩ := update_fresh_iff Rug.gmp Hashing.sample vc [0]
    [(false, 2)] commits (Hashing.sample_separates_indices (by decide)) (by decide) (by decide)
  refine ⟨written, fun accepted => ?_, (ones Cyclic.infinite).mpr (by decide),
    zeros.mpr (by decide)⟩
  exact absurd ((mixed Cyclic.infinite).mp accepted) (by decide)

open Sample in
/-- The first true bit ever written. -/
theorem update_first_true_bit_rejected :
    ∃ vc' proof, (empty : VectorCommitment Cyclic).update Rug.gmp Hashing.sample [] [(true, 0)] =
        .ok (vc', proof) ∧
      vc'.verify Hashing.sample [(true, 0)] proof = false :=
  ⟨_, _, rfl, by decide⟩

end GroupAccumulator.VectorCommitment
