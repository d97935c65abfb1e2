import GroupAccumulator.Nonmembership

/-!
# The vector commitment

A commitment to a vector of bits accumulates the indices of the bits that are
true.  `update` writes bits, `open_` proves bits and `verify` checks the proof of
either.  `groupElemsByBit` splits a list of bits into indices of false and of
true ones and refuses a repeated index.

`groupElemsByBit_eq` says what the loop computes, and `update_eq_ok` what an
update returns; `verify_update` reduces the acceptance of an update's own proof
to its nonmembership half.
-/

namespace GroupAccumulator

open Accumulator

/-- The different types of vector commitment errors. -/
inductive VCError
  | conflictingIndices
  | invalidOpen
  | unexpectedState
  deriving DecidableEq, Repr

/-- An accumulator of the indices whose bit is true. -/
structure VectorCommitment (E : Type) where
  acc : Accumulator E ℤ
  deriving DecidableEq

/-- A vector commitment proof. -/
structure VectorProof (E : Type) where
  membershipProof : MembershipProof E ℤ
  nonmembershipProof : NonmembershipProof E ℤ
  deriving DecidableEq

/-! ## Grouping by bit -/

/-- The loop of `groupElemsByBit` with its three mutable collections. -/
def groupLoop : List (Bool × ℤ) → List ℤ → List ℤ → List ℤ → Outcome VCError (List ℤ × List ℤ)
  | [], elemsWithZero, elemsWithOne, _ => .ok (elemsWithZero, elemsWithOne)
  | (bit, i) :: bits, elemsWithZero, elemsWithOne, seenIndices =>
    if i ∈ seenIndices then
      .err .conflictingIndices
    else if bit then
      groupLoop bits elemsWithZero (elemsWithOne ++ [i]) (i :: seenIndices)
    else
      groupLoop bits (elemsWithZero ++ [i]) elemsWithOne (i :: seenIndices)

/-- The indices of the false bits and those of the true bits. -/
def groupElemsByBit (bits : List (Bool × ℤ)) : Outcome VCError (List ℤ × List ℤ) :=
  groupLoop bits [] [] []

/-- The indices a list of bits writes. -/
def indices (bits : List (Bool × ℤ)) : List ℤ := bits.map Prod.snd

/-- The indices it writes `bit` to. -/
def indicesOf (bit : Bool) (bits : List (Bool × ℤ)) : List ℤ :=
  indices (bits.filter fun entry => entry.1 = bit)

theorem mem_indices_of_mem_indicesOf {bit : Bool} {bits : List (Bool × ℤ)} {i : ℤ}
    (member : i ∈ indicesOf bit bits) : i ∈ indices bits := by
  rcases List.mem_map.mp member with ⟨entry, belongs, rfl⟩
  exact List.mem_map_of_mem (List.mem_filter.mp belongs).1

theorem groupLoop_eq (bits : List (Bool × ℤ)) (zeros ones seen : List ℤ) :
    groupLoop bits zeros ones seen =
      if (indices bits).Nodup ∧ ∀ i ∈ indices bits, i ∉ seen then
        .ok (zeros ++ indicesOf false bits, ones ++ indicesOf true bits)
      else .err .conflictingIndices := by
  induction bits generalizing zeros ones seen with
  | nil => simp [groupLoop, indices, indicesOf]
  | cons entry bits ih =>
    rcases entry with ⟨bit, i⟩
    by_cases old : i ∈ seen
    · simp [groupLoop, indices, old]
    · have fresh : ((indices bits).Nodup ∧ ∀ j ∈ indices bits, j ∉ i :: seen) ↔
          ((indices ((bit, i) :: bits)).Nodup ∧ ∀ j ∈ indices ((bit, i) :: bits), j ∉ seen) := by
        simp only [indices, List.map_cons, List.nodup_cons, List.mem_cons, not_or]
        constructor
        · intro h
          rcases h with ⟨nodup, apart⟩
          refine ⟨⟨fun again => (apart i again).1 rfl, nodup⟩, ?_⟩
          intro j member
          rcases member with rfl | member
          · exact old
          · exact (apart j member).2
        · intro h
          rcases h with ⟨⟨once, nodup⟩, apart⟩
          refine ⟨nodup, fun j member => ⟨?_, apart j (Or.inr member)⟩⟩
          intro same
          cases same
          exact once member
      cases bit with
      | false =>
        simp only [groupLoop, if_neg old, ih, fresh]
        simp [indicesOf, indices]
      | true =>
        simp only [groupLoop, if_neg old, ih, fresh]
        simp [indicesOf, indices]

/-- Distinct indices are grouped, repeated ones refused. -/
theorem groupElemsByBit_eq (bits : List (Bool × ℤ)) :
    groupElemsByBit bits =
      if (indices bits).Nodup then .ok (indicesOf false bits, indicesOf true bits)
      else .err .conflictingIndices := by
  simp [groupElemsByBit, groupLoop_eq]

/-! ## The operations -/

namespace VectorCommitment

variable {E : Type} [UnknownOrderGroup E] [DecidableEq E] [Hash E] [Hash ℤ]

/-- A new vector commitment. -/
def empty : VectorCommitment E := ⟨Accumulator.empty⟩

/-- Writes `bits`, where `vcAccSet` are all indices that are set. -/
def update (R : Rug) (H : Hashing) (vc : VectorCommitment E) (vcAccSet : List ℤ)
    (bits : List (Bool × ℤ)) : Outcome VCError (VectorCommitment E × VectorProof E) := do
  let (elemsWithZero, elemsWithOne) ← groupElemsByBit bits
  let (newAcc, membershipProof) := vc.acc.addWithProof H elemsWithOne
  let nonmembershipProof ← (newAcc.proveNonmembership R H vcAccSet elemsWithZero).mapErr
    fun _ => VCError.unexpectedState
  return (⟨newAcc⟩, ⟨membershipProof, nonmembershipProof⟩)

/-- Proves that `zeroBits` are unset and that those of `oneBitWitnesses` are set. -/
def open_ (R : Rug) (H : Hashing) (vc : VectorCommitment E) (vcAccSet zeroBits : List ℤ)
    (oneBitWitnesses : List (ℤ × Witness E ℤ)) : Outcome VCError (VectorProof E) := do
  let membershipProof ← (vc.acc.proveMembership R H oneBitWitnesses).mapErr
    fun _ => VCError.invalidOpen
  let nonmembershipProof ← (vc.acc.proveNonmembership R H vcAccSet zeroBits).mapErr
    fun _ => VCError.invalidOpen
  return ⟨membershipProof, nonmembershipProof⟩

/-- Verifies a proof of `bits`. -/
def verify (H : Hashing) (vc : VectorCommitment E) (bits : List (Bool × ℤ))
    (proof : VectorProof E) : Bool :=
  match groupElemsByBit bits with
  | .ok (elemsWithZero, elemsWithOne) =>
    let verifiedMembership := vc.acc.verifyMembershipBatch H elemsWithOne proof.membershipProof
    let verifiedNonmembership :=
      vc.acc.verifyNonmembership H elemsWithZero proof.nonmembershipProof
    verifiedMembership && verifiedNonmembership
  | _ => false

end VectorCommitment

/-! ## What an update returns -/

namespace VectorCommitment

variable {E : Type} [AbelianUnknownOrderGroup E] [Hash E] [Hash ℤ]
variable {R : Rug} {H : Hashing} {vc vc' : VectorCommitment E} {accSet : List ℤ}
variable {bits : List (Bool × ℤ)} {proof : VectorProof E}

/-- An update that returned wrote distinct indices and added those of the true bits. -/
theorem of_update_eq_ok (run : vc.update R H accSet bits = .ok (vc', proof)) :
    (indices bits).Nodup ∧ vc'.acc = vc.acc.add H (indicesOf true bits) := by
  rcases Outcome.bind_eq_ok run with ⟨groups, grouped, run⟩
  rw [groupElemsByBit_eq] at grouped
  split at grouped
  next distinct =>
    cases grouped
    rcases Outcome.bind_eq_ok run with ⟨nonmembership, -, returned⟩
    cases returned
    exact ⟨distinct, rfl⟩
  next => cases grouped

/-- The new commitment and the membership half of an update's proof. -/
def afterUpdate (H : Hashing) (vc : VectorCommitment E) (bits : List (Bool × ℤ)) :
    VectorCommitment E × MembershipProof E ℤ :=
  let (newAcc, membershipProof) := vc.acc.addWithProof H (indicesOf true bits)
  (⟨newAcc⟩, membershipProof)

/-- The cofactors of the product over the false bits and the one over `accSet`. -/
def cofactors (R : Rug) (H : Hashing) (accSet : List ℤ) (bits : List (Bool × ℤ)) : ℤ × ℤ :=
  (R.gcdCofactors (H.primeHashProduct (indicesOf false bits)) (H.primeHashProduct accSet)).2

/-- An update returns when the false bits and `accSet` have coprime products. -/
theorem update_eq_ok (distinct : (indices bits).Nodup)
    (coprime : IsCoprime (H.primeHashProduct (indicesOf false bits)) (H.primeHashProduct accSet)) :
    vc.update R H accSet bits = .ok ((afterUpdate H vc bits).1,
      ⟨(afterUpdate H vc bits).2, honest H (afterUpdate H vc bits).1.acc (indicesOf false bits)
        (cofactors R H accSet bits).1 (cofactors R H accSet bits).2⟩) := by
  have proved : proveNonmembership R H (afterUpdate H vc bits).1.acc accSet
      (indicesOf false bits) = _ := proveNonmembership_eq_ok coprime
  rw [update, groupElemsByBit_eq, if_pos distinct]
  change Outcome.mapErr _ (proveNonmembership R H (afterUpdate H vc bits).1.acc accSet
    (indicesOf false bits)) >>= _ = _
  rw [proved]
  rfl

variable [DecidableEq E]

/-- The proof is accepted when the cofactors give back the generator. -/
theorem verify_update (distinct : (indices bits).Nodup) {a b : ℤ} :
    verify H (afterUpdate H vc bits).1 bits ⟨(afterUpdate H vc bits).2,
        honest H (afterUpdate H vc bits).1.acc (indicesOf false bits) a b⟩ = true ↔
      (unknownOrderElem : E) ^ (a * H.primeHashProduct (indicesOf false bits)) *
        (vc.acc.value ^ H.primeHashProduct (indicesOf true bits)) ^ b = unknownOrderElem := by
  have member : verifyMembershipBatch H (afterUpdate H vc bits).1.acc (indicesOf true bits)
      (afterUpdate H vc bits).2 = true :=
    Poe.verify_prove.mpr rfl
  unfold verify
  rw [groupElemsByBit_eq, if_pos distinct]
  exact Bool.and_eq_true_iff.trans ((and_iff_right member).trans verify_honest_iff)

end VectorCommitment

end GroupAccumulator
