import GroupAccumulator.Accumulator

/-!
# Updating a witness

A witness `w` of tracked elements is kept up to date with an accumulator that
others add to and delete from.  The relation between the old accumulator `w ^ x`
and the new one is `new ^ deleted = old ^ added`, in products of prime hashes;
the function is given the new accumulator and the two lists only.

`updateMembershipWitness_of_coprime` is the Bezout argument.  `Evolve` is the
relation over a sequence of batches, and `updateAll_valid` says that the witness
stays valid along it.
-/

namespace GroupAccumulator.Accumulator

variable {E T : Type} {tracked additions deletions : List T}

/-- Some tracked element is among those added or deleted. -/
def Touched (tracked additions deletions : List T) : Prop :=
  ∃ t ∈ tracked, t ∈ additions ∨ t ∈ deletions

theorem any_eq_true_iff_touched [DecidableEq T] :
    (tracked.any fun elem => additions.contains elem || deletions.contains elem) = true ↔
      Touched tracked additions deletions := by
  simp only [List.any_eq_true, Bool.or_eq_true, List.contains_iff_mem, Touched]

variable [AbelianUnknownOrderGroup E] [Hash T]

/-- The witness raised to the product over the tracked elements. -/
def tracks (H : Hashing) (witness : Witness E T) (tracked : List T) : E :=
  exp witness.acc.value (H.primeHashProduct tracked)

/-! ## One update -/

section

variable [DecidableEq T] {R : Rug} {H : Hashing} {acc : Accumulator E T} {witness : Witness E T}

theorem updateMembershipWitness_of_touched (touched : Touched tracked additions deletions) :
    acc.updateMembershipWitness R H witness tracked additions deletions =
      .err .badWitnessUpdate :=
  if_pos (any_eq_true_iff_touched.mpr touched)

/-- The two cofactors combine the old witness and the new accumulator into a
witness for the new one. -/
theorem updateMembershipWitness_of_coprime (untouched : ¬ Touched tracked additions deletions)
    (coprime : IsCoprime (H.primeHashProduct tracked) (H.primeHashProduct deletions))
    (evolved : exp acc.value (H.primeHashProduct deletions) =
      exp (tracks H witness tracked) (H.primeHashProduct additions)) :
    ∃ next, acc.updateMembershipWitness R H witness tracked additions deletions = .ok next ∧
      tracks H next tracked = acc.value := by
  let x := H.primeHashProduct tracked
  let xHat := H.primeHashProduct deletions
  let a := (R.gcdCofactors x xHat).2.1
  let b := (R.gcdCofactors x xHat).2.2
  let added := H.primeHashProduct additions
  have unit := R.gcd_eq_one_iff.mpr coprime
  have bez : a * x + b * xHat = 1 := R.bezout_of_gcd_eq_one unit
  refine ⟨⟨⟨(witness.acc.value ^ added) ^ b * acc.value ^ a⟩⟩, ?_, ?_⟩
  · unfold updateMembershipWitness
    rw [if_neg (mt any_eq_true_iff_touched.mp untouched)]
    have passed : assert (decide ((R.gcdCofactors x xHat).1 = 1)) = .ok () :=
      if_pos (decide_eq_true unit)
    change Outcome.lift (assert (decide ((R.gcdCofactors x xHat).1 = 1))) >>= _ = _
    rw [passed]
    rfl
  · change acc.value ^ xHat = (witness.acc.value ^ x) ^ added at evolved
    change ((witness.acc.value ^ added) ^ b * acc.value ^ a) ^ x = acc.value
    calc ((witness.acc.value ^ added) ^ b * acc.value ^ a) ^ x
        = ((witness.acc.value ^ x) ^ added) ^ b * acc.value ^ (a * x) := by
          have exponents : added * (b * x) = x * (added * b) := by ring
          rw [mul_zpow, ← zpow_mul, ← zpow_mul, ← zpow_mul, ← zpow_mul, ← zpow_mul, exponents]
      _ = acc.value ^ (a * x + b * xHat) := by
          rw [← evolved, ← zpow_mul, ← zpow_add]
          ring_nf
      _ = acc.value := by rw [bez, zpow_one]

/-- An untouched witness is updated and is valid for the new accumulator. -/
theorem updateMembershipWitness_valid
    (separates : H.Separates {t | t ∈ deletions ++ tracked})
    (untouched : ¬ Touched tracked additions deletions)
    (evolved : exp acc.value (H.primeHashProduct deletions) =
      exp (tracks H witness tracked) (H.primeHashProduct additions)) :
    ∃ next, acc.updateMembershipWitness R H witness tracked additions deletions = .ok next ∧
      tracks H next tracked = acc.value := by
  refine updateMembershipWitness_of_coprime untouched (separates.coprime_products ?_) evolved
  intro t member deleted
  exact untouched ⟨t, member, Or.inr deleted⟩

end

/-! ## Batches of updates -/

/-- A new accumulator with what was added to and deleted from the one before. -/
structure Batch (E T : Type) where
  acc : Accumulator E T
  additions : List T
  deletions : List T

/-- The accumulator of the batch has the elements added and those deleted. -/
def Batch.Evolved (H : Hashing) (old : E) (batch : Batch E T) : Prop :=
  exp batch.acc.value (H.primeHashProduct batch.deletions) =
    exp old (H.primeHashProduct batch.additions)

/-- Every batch evolved from the one before it. -/
def Evolve (H : Hashing) : E → List (Batch E T) → Prop
  | _, [] => True
  | old, batch :: batches => batch.Evolved H old ∧ Evolve H batch.acc.value batches

/-- The accumulator at the end. -/
def last : E → List (Batch E T) → E
  | old, [] => old
  | _, batch :: batches => last batch.acc.value batches

variable [DecidableEq T] (R : Rug) (H : Hashing)

/-- One update for each batch, in order. -/
def updateAll (tracked : List T) :
    Witness E T → List (Batch E T) → Outcome AccError (Witness E T)
  | witness, [] => .ok witness
  | witness, batch :: batches => do
    let next ← batch.acc.updateMembershipWitness R H witness tracked batch.additions
      batch.deletions
    updateAll tracked next batches

/-- Untouched by all batches, the witness is valid at the end. -/
theorem updateAll_valid (batches : List (Batch E T)) (witness : Witness E T)
    (separates : ∀ batch ∈ batches, H.Separates {t | t ∈ batch.deletions ++ tracked})
    (untouched : ∀ batch ∈ batches, ¬ Touched tracked batch.additions batch.deletions)
    (evolved : Evolve H (tracks H witness tracked) batches) :
    ∃ final, updateAll R H tracked witness batches = .ok final ∧
      tracks H final tracked = last (tracks H witness tracked) batches := by
  induction batches generalizing witness with
  | nil => exact ⟨witness, rfl, rfl⟩
  | cons batch batches ih =>
    rcases updateMembershipWitness_valid (R := R) (separates batch List.mem_cons_self)
      (untouched batch List.mem_cons_self) evolved.1 with ⟨next, updated, valid⟩
    rcases ih next (fun later member => separates later (List.mem_cons_of_mem batch member))
      (fun later member => untouched later (List.mem_cons_of_mem batch member))
      (valid.symm ▸ evolved.2) with ⟨final, rest, ended⟩
    refine ⟨final, ?_, ?_⟩
    · rw [updateAll, updated]
      exact rest
    · rw [ended, valid]
      rfl

/-- An update is refused exactly when it touches a tracked element; otherwise
it returns a witness for the new accumulator, and so does any chain of them. -/
theorem update_membership_witness (R : Rug) (H : Hashing) (witness : Witness E T)
    (tracked : List T) :
    (∀ (accNew : Accumulator E T) (additions deletions : List T),
      H.Separates {t | t ∈ deletions ++ (tracked ++ additions)} →
      exp accNew.value (H.primeHashProduct deletions) =
        exp (exp witness.acc.value (H.primeHashProduct tracked))
          (H.primeHashProduct additions) →
      (accNew.updateMembershipWitness R H witness tracked additions deletions =
          .err .badWitnessUpdate ↔ ∃ t ∈ tracked, t ∈ additions ∨ t ∈ deletions) ∧
        ((¬ ∃ t ∈ tracked, t ∈ additions ∨ t ∈ deletions) →
          ∃ next, accNew.updateMembershipWitness R H witness tracked additions deletions =
              .ok next ∧
            exp next.acc.value (H.primeHashProduct tracked) = accNew.value)) ∧
    ∀ batches : List (Batch E T),
      (∀ batch ∈ batches,
        H.Separates {t | t ∈ batch.deletions ++ (tracked ++ batch.additions)}) →
      (∀ batch ∈ batches, ¬ ∃ t ∈ tracked, t ∈ batch.additions ∨ t ∈ batch.deletions) →
      Evolve H (exp witness.acc.value (H.primeHashProduct tracked)) batches →
      ∃ final, updateAll R H tracked witness batches = .ok final ∧
        exp final.acc.value (H.primeHashProduct tracked) =
          last (exp witness.acc.value (H.primeHashProduct tracked)) batches := by
  have narrow {additions deletions : List T}
      (separates : H.Separates {t | t ∈ deletions ++ (tracked ++ additions)}) :
      H.Separates {t | t ∈ deletions ++ tracked} := by
    apply separates.mono
    intro t member
    cases List.mem_append.mp member with
    | inl deleted => exact List.mem_append_left _ deleted
    | inr kept => exact List.mem_append_right _ (List.mem_append_left _ kept)
  refine ⟨fun accNew additions deletions separates evolved => ?_, ?_⟩
  · have valid (untouched : ¬ Touched tracked additions deletions) :=
      updateMembershipWitness_valid (R := R) (narrow separates) untouched evolved
    refine ⟨⟨fun refused => ?_, updateMembershipWitness_of_touched⟩, valid⟩
    by_contra untouched
    rcases valid untouched with ⟨next, returned, -⟩
    rw [returned] at refused
    cases refused
  · intro batches separates untouched evolved
    exact updateAll_valid R H batches witness
      (fun batch member => narrow (separates batch member)) untouched evolved

end GroupAccumulator.Accumulator
