import GroupAccumulator.Accumulator

/-!
# Nonmembership proofs

A nonmembership proof holds elements `d`, `v` and `gvInv`, a proof that `v` is a
power of the accumulator and a proof that `gvInv` is `d` raised to the product
`x` of the prime hashes.  The honest prover sets `gvInv = g * v⁻¹`, which turns
the two statements into `d ^ x * acc ^ b = g`.

The verifier checks the two proofs and nothing else.  `assemble` computes both
from freely chosen `d`, `b` and `gvInv`, and what it computes is accepted as
soon as `gvInv = d ^ x` (`verify_assemble`), whatever `v` is.  `honest` is the
choice of the honest prover (`proveNonmembership_eq_ok`), and it is accepted for
every set the products of which are coprime (`nonmembership_complete`).
-/

namespace GroupAccumulator.Accumulator

section

variable {E T : Type} [AbelianUnknownOrderGroup E] [Hash E] [Hash T] [Hash ℤ]
variable {R : Rug} {H : Hashing} {self : Accumulator E T} {accSet elems : List T}

/-- The proof for chosen `d`, `b` and `gvInv`, its parts computed by their provers. -/
def assemble (H : Hashing) (self : Accumulator E T) (elems : List T) (d : E) (b : ℤ)
    (gvInv : E) : NonmembershipProof E T :=
  let v := exp self.value b
  ⟨d, v, gvInv, Poke2.prove H self.value b v, Poe.prove H d (H.primeHashProduct elems) gvInv⟩

/-- The honest prover's choice for cofactors `a` and `b`. -/
def honest (H : Hashing) (self : Accumulator E T) (elems : List T) (a b : ℤ) :
    NonmembershipProof E T :=
  assemble H self elems (exp unknownOrderElem a) b
    (op unknownOrderElem (inv (exp self.value b)))

/-! ## The honest prover -/

/-- For coprime products a proof is computed, by cofactors of the two. -/
theorem proveNonmembership_eq_ok
    (coprime : IsCoprime (H.primeHashProduct elems) (H.primeHashProduct accSet)) :
    let cofactors := (R.gcdCofactors (H.primeHashProduct elems) (H.primeHashProduct accSet)).2
    self.proveNonmembership R H accSet elems =
      .ok (honest H self elems cofactors.1 cofactors.2) :=
  if_neg (not_not.mpr (R.gcd_eq_one_iff.mpr coprime))

/-- Products with a common factor are refused. -/
theorem proveNonmembership_eq_err
    (shared : ¬ IsCoprime (H.primeHashProduct elems) (H.primeHashProduct accSet)) :
    self.proveNonmembership R H accSet elems = .err .inputsNotCoprime :=
  if_pos (mt R.gcd_eq_one_iff.mp shared)

variable [DecidableEq E]

/-- The verifier only looks at the product. -/
theorem verifyNonmembership_perm {elems' : List T} {proof : NonmembershipProof E T}
    (perm : elems'.Perm elems) :
    self.verifyNonmembership H elems' proof = self.verifyNonmembership H elems proof := by
  have product : (elems'.map H.hashToPrime).prod = (elems.map H.hashToPrime).prod :=
    H.primeHashProduct_perm perm
  unfold verifyNonmembership
  rw [product]

/-- Only the second half can fail. -/
theorem verify_assemble {d gvInv : E} {b : ℤ} :
    self.verifyNonmembership H elems (assemble H self elems d b gvInv) = true ↔
      d ^ H.primeHashProduct elems = gvInv := by
  have knows : Poke2.verify H self.value (exp self.value b)
      (Poke2.prove H self.value b (exp self.value b)) = true :=
    Poke2.verify_prove.mpr rfl
  exact Bool.and_eq_true_iff.trans ((and_iff_right knows).trans Poe.verify_prove)

/-- The honest choice is accepted when the cofactors give back the generator. -/
theorem verify_honest_iff {a b : ℤ} :
    self.verifyNonmembership H elems (honest H self elems a b) = true ↔
      (unknownOrderElem : E) ^ (a * H.primeHashProduct elems) * self.value ^ b =
        unknownOrderElem := by
  rw [honest, verify_assemble, zpow_mul]
  exact eq_mul_inv_iff_mul_eq

/-- About the accumulator of `accSet` a proof is refused exactly when the
products have a common factor; otherwise one is computed and accepted. -/
theorem nonmembership_complete (R : Rug) (H : Hashing) (accSet elems : List T) :
    let acc : Accumulator E T := «from» H accSet
    let x := H.primeHashProduct elems
    let s := H.primeHashProduct accSet
    (acc.proveNonmembership R H accSet elems = .err .inputsNotCoprime ↔ Int.gcd x s ≠ 1) ∧
      (Int.gcd x s = 1 → ∃ proof, acc.proveNonmembership R H accSet elems = .ok proof ∧
        acc.verifyNonmembership H elems proof = true) ∧
      (H.Separates {t | t ∈ accSet ++ elems} →
        (Int.gcd x s ≠ 1 ↔ ∃ t ∈ elems, t ∈ accSet)) := by
  intro acc x s
  have value : acc.value = (unknownOrderElem : E) ^ s := rfl
  have proved (unit : Int.gcd x s = 1) :
      ∃ proof, acc.proveNonmembership R H accSet elems = .ok proof ∧
        acc.verifyNonmembership H elems proof = true := by
    have coprime := Int.isCoprime_iff_gcd_eq_one.mpr unit
    have bez := R.bezout_of_gcd_eq_one (R.gcd_eq_one_iff.mpr coprime)
    refine ⟨_, proveNonmembership_eq_ok coprime, verify_honest_iff.mpr ?_⟩
    rw [value, ← zpow_mul, ← zpow_add, mul_comm s, bez, zpow_one]
  refine ⟨⟨fun refused unit => ?_, fun shared => ?_⟩, proved,
    fun separates => separates.gcd_ne_one_iff⟩
  · rcases proved unit with ⟨proof, returned, -⟩
    rw [returned] at refused
    cases refused
  · exact proveNonmembership_eq_err fun coprime => shared (Int.isCoprime_iff_gcd_eq_one.mp coprime)

/-! ## Proofs of any kind -/

/-- With nothing to prove absent, every `gvInv` is accepted beside every `v`. -/
theorem verify_empty (b : ℤ) (gvInv : E) :
    self.verifyNonmembership H ([] : List T) (assemble H self [] gvInv b gvInv) = true :=
  verify_assemble.mpr (zpow_one gvInv)

/-- The trivial choice is accepted for all elements, accumulated or not. -/
theorem verify_trivial (elems : List T) :
    self.verifyNonmembership H elems (assemble H self elems GroupTrait.id 0 GroupTrait.id) =
      true :=
  verify_assemble.mpr (one_zpow _)

/-- Acceptance ties `gvInv` to `v` in the one-element group only.  In any group
whose generator is not the identity, both checked statements can be true of an
accepted proof that says nothing about the accumulator. -/
theorem verifyNonmembership_ties_iff (H : Hashing) (self : Accumulator E T) :
    ((∀ (elems : List T) (proof : NonmembershipProof E T),
        self.verifyNonmembership H elems proof = true →
          proof.gvInv = op unknownOrderElem (inv proof.v)) ↔
      ∀ x : E, x = GroupTrait.id) ∧
    ((unknownOrderElem : E) ≠ GroupTrait.id → ∀ elems : List T,
      ∃ (proof : NonmembershipProof E T) (b : ℤ),
        self.verifyNonmembership H elems proof = true ∧ proof.v = exp self.value b ∧
          proof.gvInv = exp proof.d (H.primeHashProduct elems) ∧
          op (exp proof.d (H.primeHashProduct elems)) (exp self.value b) ≠ unknownOrderElem) := by
  refine ⟨⟨fun tied x => ?_, fun single elems proof _ => ?_⟩, fun proper elems => ?_⟩
  · -- `gvInv` is free for an empty list, so two choices of it agree
    have one := tied [] _ (verify_empty 0 x)
    have two := tied [] _ (verify_empty 0 GroupTrait.id)
    exact one.trans two.symm
  · rw [single proof.gvInv, single (op _ _)]
  · refine ⟨assemble H self elems GroupTrait.id 0 GroupTrait.id, 0, verify_trivial elems, rfl,
      (one_zpow _).symm, ?_⟩
    have left : op (exp GroupTrait.id (H.primeHashProduct elems)) (exp self.value 0) =
        (GroupTrait.id : E) := by
      change (1 : E) ^ H.primeHashProduct elems * self.value ^ (0 : ℤ) = 1
      rw [one_zpow, zpow_zero, one_mul]
    intro same
    exact proper (same.symm.trans left)

end

open Sample in
/-- The generator's third power accumulates an element that hashes to three; a
proof that it does not is accepted. -/
theorem verifyNonmembership_accepts_forgery :
    let self : Accumulator Cyclic Bool := «from» Hashing.sample [true]
    let proof : NonmembershipProof Cyclic Bool := ⟨⟨0⟩, ⟨0⟩, ⟨0⟩, ⟨⟨0⟩, ⟨0⟩, 0⟩, ⟨⟨0⟩⟩⟩
    self.verifyNonmembership Hashing.sample [true] proof = true ∧
      proof.v = exp self.value 0 ∧ proof.gvInv = exp proof.d 3 ∧
      proof.gvInv ≠ op unknownOrderElem (inv proof.v) ∧
      op (exp proof.d 3) (exp self.value 0) ≠ unknownOrderElem := by
  decide

end GroupAccumulator.Accumulator
