import GroupAccumulator.Proof
import GroupAccumulator.Util

/-!
# The accumulator

The whole of `accumulator.rs`: an accumulator is one group element, and the
elements of a type `T` it commits to occur only as the prime hashes in its
exponent.  Functions returning `Result<_, AccError>` are in `Outcome AccError`;
the recursion of `rootFactor` has no bound of its own and runs on fuel.

The laws of the group are not used here.
-/

namespace GroupAccumulator

/-- The different types of accumulator errors. -/
inductive AccError
  | badWitness
  | badWitnessUpdate
  | divisionByZero
  | inexactDivision
  | inputsNotCoprime
  deriving DecidableEq, Repr

/-- A single group element, committing to elements of type `T`. -/
structure Accumulator (E T : Type) where
  value : E
  deriving DecidableEq

/-- A witness to one or more values in an accumulator, represented as an accumulator. -/
structure Witness (E T : Type) where
  acc : Accumulator E T
  deriving DecidableEq

/-- A succinct proof of membership. -/
structure MembershipProof (E T : Type) where
  witness : Witness E T
  proof : Poe E
  deriving DecidableEq

/-- A succinct proof of nonmembership. -/
structure NonmembershipProof (E T : Type) where
  d : E
  v : E
  gvInv : E
  poke2Proof : Poke2 E
  poeProof : Poe E
  deriving DecidableEq

variable {E T : Type} [UnknownOrderGroup E] [DecidableEq E] [Hash E] [Hash T] [Hash ℤ]

namespace Accumulator

/-! ## Additions -/

/-- A new, empty accumulator. -/
def empty : Accumulator E T := ⟨unknownOrderElem⟩

variable (R : Rug) (H : Hashing) (self : Accumulator E T)

/-- Also returns the prime hash product of the added elements. -/
def add_ (elems : List T) : Accumulator E T × ℤ :=
  let x := H.primeHashProduct elems
  let accElem := exp self.value x
  (⟨accElem⟩, x)

/-- Adds `elems`, without checking whether they have been added already. -/
def add (elems : List T) : Accumulator E T := (self.add_ H elems).1

/-- Also returns a batch membership proof for the added elements. -/
def addWithProof (elems : List T) : Accumulator E T × MembershipProof E T :=
  let (acc, x) := self.add_ H elems
  let proof := Poe.prove H self.value x acc.value
  (acc, ⟨⟨self⟩, proof⟩)

/-- `From<&[T]>`. -/
def «from» (ts : List T) : Accumulator E T := add H empty ts

/-! ## Deletions -/

/-- The prime hash and the group element of each entry of a batch. -/
def primeWitnesses (elemWitnesses : List (T × Witness E T)) : List (ℤ × E) :=
  elemWitnesses.map fun (elem, witness) => (H.hashToPrime elem, witness.acc.value)

/-- The closure `delete_` folds with. -/
def combineRoots {ε : Type} : ℤ × E → ℤ × E → Outcome ε (ℤ × E)
  | (p1, v1), (p2, v2) => do
    let v ← Outcome.lift (unwrap (shamirTrick R v1 v2 p1 p2))
    return (p1 * p2, v)

/-- Also returns the prime hash product of the deleted elements. -/
def delete_ (elemWitnesses : List (T × Witness E T)) :
    Outcome AccError (Accumulator E T × ℤ) :=
  let batch := primeWitnesses H elemWitnesses
  if batch.any fun (p, witnessElem) => exp witnessElem p ≠ self.value then
    .err .badWitness
  else do
    let (primeProduct, accElem) ← divideAndConquer (combineRoots R) (1, self.value) batch
    return (⟨accElem⟩, primeProduct)

/-- Removes the elements in `elemWitnesses` from the accumulator. -/
def delete (elemWitnesses : List (T × Witness E T)) : Outcome AccError (Accumulator E T) := do
  let (acc, _) ← self.delete_ R H elemWitnesses
  return acc

/-- Also returns a batch membership proof for the deleted elements. -/
def deleteWithProof (elemWitnesses : List (T × Witness E T)) :
    Outcome AccError (Accumulator E T × MembershipProof E T) := do
  let (acc, primeProduct) ← self.delete_ R H elemWitnesses
  let proof := Poe.prove H acc.value primeProduct self.value
  return (acc, ⟨⟨acc⟩, proof⟩)

/-! ## Membership -/

/-- The batch membership proof for the elements in `elemWitnesses`. -/
def proveMembership (elemWitnesses : List (T × Witness E T)) :
    Outcome AccError (MembershipProof E T) := do
  let witnessAccum ← self.delete R H elemWitnesses
  let prod := (elemWitnesses.map fun (t, _) => H.hashToPrime t).prod
  let proof := Poe.prove H witnessAccum.value prod self.value
  return ⟨⟨witnessAccum⟩, proof⟩

/-- Verifies a membership proof of the element `t`. -/
def verifyMembership (t : T) (membership : MembershipProof E T) : Bool :=
  let exponent := H.hashToPrime t
  Poe.verify H membership.witness.acc.value exponent self.value membership.proof

/-- Batch version of `verifyMembership`. -/
def verifyMembershipBatch (elems : List T) (membership : MembershipProof E T) : Bool :=
  let exponent := H.primeHashProduct elems
  Poe.verify H membership.witness.acc.value exponent self.value membership.proof

/-- Updates a witness for `trackedElems`, adding `untrackedAdditions` to the
tracked set and removing `untrackedDeletions` from it. -/
def updateMembershipWitness [DecidableEq T] (witness : Witness E T)
    (trackedElems untrackedAdditions untrackedDeletions : List T) :
    Outcome AccError (Witness E T) :=
  let x := H.primeHashProduct trackedElems
  let xHat := H.primeHashProduct untrackedDeletions
  if trackedElems.any fun elem =>
      untrackedAdditions.contains elem || untrackedDeletions.contains elem then
    .err .badWitnessUpdate
  else do
    let (gcd, a, b) := R.gcdCofactors x xHat
    Outcome.lift (assert (gcd = 1))
    let w := witness.acc.add H untrackedAdditions
    let wToB := exp w.value b
    let accNewToA := exp self.value a
    return ⟨⟨op wToB accNewToA⟩⟩

/-! ## Nonmembership -/

/-- The batch nonmembership proof for `elems`, where `accSet` is the set the
accumulator commits to. -/
def proveNonmembership (accSet elems : List T) : Outcome AccError (NonmembershipProof E T) :=
  let x := (elems.map H.hashToPrime).prod
  let s := (accSet.map H.hashToPrime).prod
  let (gcd, a, b) := R.gcdCofactors x s
  if gcd ≠ 1 then
    .err .inputsNotCoprime
  else
    let g : E := unknownOrderElem
    let d := exp g a
    let v := exp self.value b
    let gvInv := op g (inv v)
    let poke2Proof := Poke2.prove H self.value b v
    let poeProof := Poe.prove H d x gvInv
    .ok ⟨d, v, gvInv, poke2Proof, poeProof⟩

/-- Verifies a nonmembership proof of `elems`. -/
def verifyNonmembership (elems : List T) (nonmembership : NonmembershipProof E T) : Bool :=
  let x := (elems.map H.hashToPrime).prod
  Poke2.verify H self.value nonmembership.v nonmembership.poke2Proof &&
    Poe.verify H nonmembership.d x nonmembership.gvInv nonmembership.poeProof

end Accumulator

/-! ## Splitting witnesses -/

namespace Witness

variable (H : Hashing) (self : Witness E T)

/-- From a witness for `witnessSet`, a witness for its subset `witnessSubset`. -/
def computeSubsetWitness [DecidableEq T] (witnessSet witnessSubset : List T) :
    Outcome AccError (Witness E T) :=
  if witnessSubset.any fun witness => !witnessSet.contains witness then
    .err .badWitness
  else do
    let numerator := H.primeHashProduct witnessSet
    let denominator := H.primeHashProduct witnessSubset
    let quotient ← Outcome.lift (divTrunc numerator denominator)
    let remainder ← Outcome.lift (remTrunc numerator denominator)
    if remainder ≠ 0 then
      .err .inexactDivision
    else
      return ⟨⟨exp self.acc.value quotient⟩⟩

/-- Raises the witness to each exponent in turn. -/
def raise (self : Witness E T) (elems : List ℤ) : Witness E T :=
  elems.foldl (fun sum x => ⟨⟨exp sum.acc.value x⟩⟩) self

/-- For each exponent the power by all the others. -/
def rootFactor : ℕ → Witness E T → List ℤ → Exec (List (Witness E T))
  | 0, _, _ => .error .outOfFuel
  | fuel + 1, self, elems =>
    if elems.length = 1 then
      return [self]
    else do
      let halfN := elems.length / 2
      let gL := self.raise (elems.take halfN)
      let gR := self.raise (elems.drop halfN)
      let l ← rootFactor fuel gR (elems.take halfN)
      let r ← rootFactor fuel gL (elems.drop halfN)
      return l ++ r

/-- From a witness for `elems`, a witness for each of them. -/
def computeIndividualWitnesses (fuel : ℕ) (elems : List T) : Exec (List (T × Witness E T)) := do
  let hashes := elems.map H.hashToPrime
  let roots ← rootFactor fuel self hashes
  return elems.zip roots

end Witness

end GroupAccumulator
