import GroupAccumulator.AccumulatorDelete

/-!
# Membership proofs

Three functions produce membership proofs: `addWithProof` for the elements it
added, `deleteWithProof` for those it deleted and `proveMembership` for those
whose witnesses it was given.  Each takes the exponent from elsewhere: from the
list, from the fold over the batch, from a product of its own.  The verifiers
compute it once more.  `powers_to` says that the witness in the proof raised to
the product over the elements is the accumulator; that is what `Poe` proves, and
it does not depend on the order.

A witness that is not such a root is accepted only with a proof that holds a root of
another element but the identity (`forged_proof_holds_root`).
-/

namespace GroupAccumulator

open Theory

variable {E T : Type} [AbelianUnknownOrderGroup E] [Hash E] [Hash T] [Hash ℤ]
variable {R : Rug} {H : Hashing}

namespace Accumulator

/-! ## What a proof is about -/

/-- The proof holds a root of the accumulator for the product over `elems`, and
the proof of exponentiation computed for it. -/
def Proves (H : Hashing) (acc : Accumulator E T) (elems : List T)
    (membership : MembershipProof E T) : Prop :=
  membership.witness.acc.value ^ H.primeHashProduct elems = acc.value ∧
    membership.proof =
      Poe.prove H membership.witness.acc.value (H.primeHashProduct elems) acc.value

variable {acc acc' : Accumulator E T} {elems elems' : List T} {membership : MembershipProof E T}
variable {batch : List (T × Witness E T)}

theorem proves_of_addWithProof (run : acc.addWithProof H elems = (acc', membership)) :
    Proves H acc' elems membership := by
  cases run
  exact ⟨rfl, rfl⟩

variable [DecidableEq E]

theorem proves_of_deleteWithProof
    (run : acc.deleteWithProof R H batch = .ok (acc', membership)) :
    Proves H acc (batch.map Prod.fst) membership := by
  rcases Outcome.bind_eq_ok run with ⟨⟨next, P⟩, deleted, returned⟩
  rcases pow_of_delete deleted with ⟨rfl, power⟩
  cases returned
  exact ⟨power, rfl⟩

theorem proves_of_proveMembership (run : acc.proveMembership R H batch = .ok membership) :
    Proves H acc (batch.map Prod.fst) membership := by
  rcases Outcome.bind_eq_ok run with ⟨next, deleted, returned⟩
  rcases Outcome.bind_eq_ok deleted with ⟨⟨next', P⟩, folded, kept⟩
  rcases pow_of_delete folded with ⟨-, power⟩
  cases kept
  cases returned
  -- the product over the batch is the product over its elements
  have product : (batch.map fun x => H.hashToPrime x.1).prod =
      H.primeHashProduct (batch.map Prod.fst) := by
    unfold Hashing.primeHashProduct
    rw [List.map_map]
    rfl
  refine ⟨power, ?_⟩
  rw [← product]

/-! ## Acceptance -/

theorem Proves.verify_batch (proves : Proves H acc elems membership)
    (perm : elems'.Perm elems) : acc.verifyMembershipBatch H elems' membership = true := by
  rcases proves with ⟨power, computed⟩
  unfold verifyMembershipBatch
  rw [H.primeHashProduct_perm perm, computed]
  exact Poe.verify_prove.mpr power

theorem Proves.verify_single {t : T} (proves : Proves H acc [t] membership) :
    acc.verifyMembership H t membership = true := by
  rcases proves with ⟨power, computed⟩
  have single : H.primeHashProduct [t] = H.hashToPrime t := by
    rw [H.primeHashProduct_cons, H.primeHashProduct_nil, mul_one]
  rw [single] at power computed
  unfold verifyMembership
  rw [computed]
  exact Poe.verify_prove.mpr power

/-- Every membership proof the three functions produce is accepted, in any order
of the elements, and by `verifyMembership` too when there is one. -/
theorem membership_proofs_accepted (R : Rug) (H : Hashing) (acc : Accumulator E T) :
    (∀ elems acc' membership, acc.addWithProof H elems = (acc', membership) →
      (∀ elems' : List T, elems'.Perm elems →
          acc'.verifyMembershipBatch H elems' membership = true) ∧
        ∀ t, elems = [t] → acc'.verifyMembership H t membership = true) ∧
    (∀ batch acc' membership, acc.deleteWithProof R H batch = .ok (acc', membership) →
      (∀ elems' : List T, elems'.Perm (batch.map Prod.fst) →
          acc.verifyMembershipBatch H elems' membership = true) ∧
        ∀ t, batch.map Prod.fst = [t] → acc.verifyMembership H t membership = true) ∧
    ∀ batch membership, acc.proveMembership R H batch = .ok membership →
      (∀ elems' : List T, elems'.Perm (batch.map Prod.fst) →
          acc.verifyMembershipBatch H elems' membership = true) ∧
        ∀ t, batch.map Prod.fst = [t] → acc.verifyMembership H t membership = true := by
  have accepted {acc : Accumulator E T} {elems : List T} {membership : MembershipProof E T}
      (proves : Proves H acc elems membership) :
      (∀ elems' : List T, elems'.Perm elems →
          acc.verifyMembershipBatch H elems' membership = true) ∧
        ∀ t, elems = [t] → acc.verifyMembership H t membership = true := by
    refine ⟨fun elems' perm => proves.verify_batch perm, fun t single => ?_⟩
    subst single
    exact proves.verify_single
  refine ⟨?_, ?_, ?_⟩
  · intro elems acc' membership run
    exact accepted (proves_of_addWithProof run)
  · intro batch acc' membership run
    exact accepted (proves_of_deleteWithProof run)
  · intro batch membership run
    exact accepted (proves_of_proveMembership run)

/-! ## Forged proofs -/

/-- A proof of exponentiation is accepted exactly when it holds a root of the gap
between the statement and the truth.  The gap of a false statement is not the identity,
and neither is that of a membership proof whose witness is wrong. -/
theorem forged_proof_holds_root {G : Type} [AbelianGroup G] [Hash G] [DecidableEq G]
    (H : Hashing) :
    (∀ (base result : G) (n : ℤ) (proof : Poe G),
      let l := H.hashToPrime (base, n, result)
      let q := n.tdiv l
      (Poe.verify H base n result proof = true ↔
          (proof.Q * base ^ (-q)) ^ l = result * base ^ (-n)) ∧
        (Poe.verify H base n result proof = true → result ≠ base ^ n →
          result * base ^ (-n) ≠ 1 ∧ (proof.Q * base ^ (-q)) ^ l = result * base ^ (-n))) ∧
    (∀ (acc : Accumulator E T) (t : T) (membership : MembershipProof E T),
      let w := membership.witness.acc.value
      let p := H.hashToPrime t
      let l := H.hashToPrime (w, p, acc.value)
      acc.verifyMembership H t membership = true → w ^ p ≠ acc.value →
        acc.value * w ^ (-p) ≠ 1 ∧
          (membership.proof.Q * w ^ (-(p.tdiv l))) ^ l = acc.value * w ^ (-p)) ∧
    (∀ (acc : Accumulator E T) (elems : List T) (membership : MembershipProof E T),
      let w := membership.witness.acc.value
      let p := H.primeHashProduct elems
      let l := H.hashToPrime (w, p, acc.value)
      acc.verifyMembershipBatch H elems membership = true → w ^ p ≠ acc.value →
        acc.value * w ^ (-p) ≠ 1 ∧
          (membership.proof.Q * w ^ (-(p.tdiv l))) ^ l = acc.value * w ^ (-p)) := by
  have gap {A : Type} [AbelianGroup A] {base result : A} {n : ℤ} (differ : result ≠ base ^ n) :
      result * base ^ (-n) ≠ 1 := by
    rw [zpow_neg]
    exact mul_inv_eq_one.not.mpr differ
  refine ⟨?_, ?_, ?_⟩
  · intro base result n proof l q
    refine ⟨Poe.verify_eq_true_iff_root, fun accepted differ => ⟨gap differ, ?_⟩⟩
    exact Poe.verify_eq_true_iff_root.mp accepted
  · intro acc t membership w p l accepted differ
    exact ⟨gap differ.symm, Poe.verify_eq_true_iff_root.mp accepted⟩
  · intro acc elems membership w p l accepted differ
    exact ⟨gap differ.symm, Poe.verify_eq_true_iff_root.mp accepted⟩

end Accumulator

end GroupAccumulator
