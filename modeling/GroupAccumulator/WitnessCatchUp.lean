import GroupAccumulator.Theory.PowerPairs
import GroupAccumulator.WitnessSubset
import GroupAccumulator.WitnessUpdate

/-!
# What an update depends on

The updated witness is computed from Bezout cofactors, but it does not depend on
them: it is the one element whose powers by the tracked and by the deleted
product are the new accumulator and the old witness with the additions
(`updateMembershipWitness_eq_ok_iff`).  From this one fact:

* a witness that was updated batch by batch is the one updated once with all
  additions and deletions together (`updateAll_eq_single_update`);
* additions and deletions may be netted out first (`update_of_same_net`);
* splitting a witness and updating it commute (`update_subset_square`).
-/

namespace GroupAccumulator

open Theory

variable {E T : Type} [AbelianUnknownOrderGroup E] [Hash T]

/-! ## Taking a part of a witness -/

/-- A part is served exactly when its product divides that of the set, with the power by the
quotient. -/
theorem Witness.computeSubsetWitness_eq_ok_iff [DecidableEq T] {H : Hashing}
    {self part : Witness E T} {witnessSet witnessSubset : List T} :
    self.computeSubsetWitness H witnessSet witnessSubset = .ok part ↔
      (∀ t ∈ witnessSubset, t ∈ witnessSet) ∧
        ∃ q, H.primeHashProduct witnessSubset * q = H.primeHashProduct witnessSet ∧
          part.acc.value = self.acc.value ^ q := by
  constructor
  · intro served
    by_cases foreign : ∃ t ∈ witnessSubset, t ∉ witnessSet
    · rw [computeSubsetWitness_of_foreign self foreign] at served
      cases served
    · push Not at foreign
      by_cases divides : H.primeHashProduct witnessSubset ∣ H.primeHashProduct witnessSet
      · obtain ⟨q, factor⟩ := divides
        rw [computeSubsetWitness_of_mul_eq self foreign factor.symm] at served
        cases served
        exact ⟨foreign, q, factor.symm, rfl⟩
      · rw [computeSubsetWitness_of_not_dvd self foreign divides] at served
        cases served
  · intro h
    obtain ⟨members, q, factor, value⟩ := h
    rcases part with ⟨⟨_⟩⟩
    cases value
    exact computeSubsetWitness_of_mul_eq self members factor

namespace Accumulator

variable {tracked additions deletions : List T} {R : Rug} {H : Hashing} {acc : Accumulator E T}
variable {witness next : Witness E T}

/-! ## One update -/

/-- The accumulator has the elements added and those deleted since the witness was valid. -/
def Since (H : Hashing) (witness : Witness E T) (tracked additions deletions : List T)
    (acc : Accumulator E T) : Prop :=
  exp acc.value (H.primeHashProduct deletions) =
    exp (tracks H witness tracked) (H.primeHashProduct additions)

/-- The updated witness is characterised by two of its powers. -/
def Updated (H : Hashing) (witness : Witness E T) (tracked additions deletions : List T)
    (acc : Accumulator E T) (next : Witness E T) : Prop :=
  PowerPair (H.primeHashProduct tracked) (H.primeHashProduct deletions) acc.value
    (witness.acc.value ^ H.primeHashProduct additions) next.acc.value

/-- Two updates in a row are one. -/
theorem Updated.trans {additions' deletions' : List T} {acc' : Accumulator E T}
    {final : Witness E T} (before : Updated H witness tracked additions deletions acc next)
    (after : Updated H next tracked additions' deletions' acc' final) :
    Updated H witness tracked (additions ++ additions') (deletions ++ deletions') acc' final := by
  have both := PowerPair.trans before after
  unfold Updated
  rw [H.primeHashProduct_append, H.primeHashProduct_append]
  exact both

section

variable [DecidableEq T]

theorem updateMembershipWitness_of_not_coprime
    (untouched : ¬ Touched tracked additions deletions)
    (shared : ¬ IsCoprime (H.primeHashProduct tracked) (H.primeHashProduct deletions)) :
    acc.updateMembershipWitness R H witness tracked additions deletions =
      .fault .assertFailed := by
  have failed : assert (decide ((R.gcdCofactors (H.primeHashProduct tracked)
      (H.primeHashProduct deletions)).1 = 1)) = .error .assertFailed := by
    rw [decide_eq_false (mt R.gcd_eq_one_iff.mp shared)]
    rfl
  unfold updateMembershipWitness
  rw [if_neg (mt any_eq_true_iff_touched.mp untouched)]
  simp only [failed]
  rfl

theorem updated_of_coprime (untouched : ¬ Touched tracked additions deletions)
    (coprime : IsCoprime (H.primeHashProduct tracked) (H.primeHashProduct deletions))
    (since : Since H witness tracked additions deletions acc) :
    ∃ next, acc.updateMembershipWitness R H witness tracked additions deletions = .ok next ∧
      Updated H witness tracked additions deletions acc next := by
  let cofactors := R.gcdCofactors (H.primeHashProduct tracked) (H.primeHashProduct deletions)
  have unit : cofactors.1 = 1 := R.gcd_eq_one_iff.mpr coprime
  have passed : assert (decide (cofactors.1 = 1)) = .ok () := if_pos (decide_eq_true unit)
  have compatible : (witness.acc.value ^ H.primeHashProduct additions) ^
      H.primeHashProduct tracked = acc.value ^ H.primeHashProduct deletions := by
    have evolved : acc.value ^ H.primeHashProduct deletions =
        (witness.acc.value ^ H.primeHashProduct tracked) ^ H.primeHashProduct additions := since
    rw [evolved, ← zpow_mul, ← zpow_mul, mul_comm]
  refine ⟨⟨⟨(witness.acc.value ^ H.primeHashProduct additions) ^ cofactors.2.2 *
    acc.value ^ cofactors.2.1⟩⟩, ?_,
    PowerPair.of_bezout (R.bezout_of_gcd_eq_one unit) compatible⟩
  unfold updateMembershipWitness
  rw [if_neg (mt any_eq_true_iff_touched.mp untouched)]
  change Outcome.lift (assert (decide (cofactors.1 = 1))) >>= _ = _
  rw [passed]
  rfl

/-- An update succeeds when it touches nothing tracked and the products are coprime, and what
it returns is determined by its two powers. -/
theorem updateMembershipWitness_eq_ok_iff
    (since : Since H witness tracked additions deletions acc) :
    acc.updateMembershipWitness R H witness tracked additions deletions = .ok next ↔
      ¬ Touched tracked additions deletions ∧
        IsCoprime (H.primeHashProduct tracked) (H.primeHashProduct deletions) ∧
        Updated H witness tracked additions deletions acc next := by
  by_cases touched : Touched tracked additions deletions
  · rw [updateMembershipWitness_of_touched touched]
    constructor
    · intro returned
      cases returned
    · intro conditions
      exact (conditions.1 touched).elim
  · by_cases coprime : IsCoprime (H.primeHashProduct tracked) (H.primeHashProduct deletions)
    · obtain ⟨next', returned, updated⟩ := updated_of_coprime (R := R) touched coprime since
      rw [returned]
      constructor
      · intro same
        cases same
        exact ⟨touched, coprime, updated⟩
      · intro conditions
        have value := updated.unique coprime conditions.2.2
        rcases next with ⟨⟨_⟩⟩
        rcases next' with ⟨⟨_⟩⟩
        cases value
        rfl
    · rw [updateMembershipWitness_of_not_coprime touched coprime]
      constructor
      · intro returned
        cases returned
      · intro conditions
        exact (coprime conditions.2.1).elim

end

/-! ## Batches -/

/-- Everything added by the batches. -/
def allAdditions (batches : List (Batch E T)) : List T := batches.flatMap Batch.additions

/-- Everything deleted by the batches. -/
def allDeletions (batches : List (Batch E T)) : List T := batches.flatMap Batch.deletions

omit [Hash T] in
theorem touched_append {additions' deletions' : List T} :
    Touched tracked (additions ++ additions') (deletions ++ deletions') ↔
      Touched tracked additions deletions ∨ Touched tracked additions' deletions' := by
  constructor
  · intro h
    rcases h with ⟨t, member, added | deleted⟩
    · cases List.mem_append.mp added with
      | inl here => exact Or.inl ⟨t, member, Or.inl here⟩
      | inr later => exact Or.inr ⟨t, member, Or.inl later⟩
    · cases List.mem_append.mp deleted with
      | inl here => exact Or.inl ⟨t, member, Or.inr here⟩
      | inr later => exact Or.inr ⟨t, member, Or.inr later⟩
  · intro h
    rcases h with ⟨t, member, here⟩ | ⟨t, member, later⟩
    · exact ⟨t, member, here.imp (List.mem_append_left _) (List.mem_append_left _)⟩
    · exact ⟨t, member, later.imp (List.mem_append_right _) (List.mem_append_right _)⟩

omit [AbelianUnknownOrderGroup E] in
theorem primeHashProduct_allDeletions (batch : Batch E T) (batches : List (Batch E T)) :
    H.primeHashProduct (allDeletions (batch :: batches)) =
      H.primeHashProduct batch.deletions * H.primeHashProduct (allDeletions batches) :=
  H.primeHashProduct_append batch.deletions (allDeletions batches)

variable [DecidableEq T]

/-- Nothing tracked touched and coprime products: the batches are gone through, and the result
has the two powers of a single update. -/
theorem updateAll_of_coprime (batches : List (Batch E T))
    (evolve : Evolve H (tracks H witness tracked) batches)
    (untouched : ¬ Touched tracked (allAdditions batches) (allDeletions batches))
    (coprime : IsCoprime (H.primeHashProduct tracked)
      (H.primeHashProduct (allDeletions batches))) :
    ∃ final, updateAll R H tracked witness batches = .ok final ∧
      Updated H witness tracked (allAdditions batches) (allDeletions batches)
        ⟨last (tracks H witness tracked) batches⟩ final := by
  induction batches generalizing witness with
  | nil => exact ⟨witness, rfl, rfl, rfl⟩
  | cons batch batches ih =>
    have apart : ¬ (Touched tracked batch.additions batch.deletions ∨
        Touched tracked (allAdditions batches) (allDeletions batches)) :=
      mt touched_append.mpr untouched
    rw [primeHashProduct_allDeletions, IsCoprime.mul_right_iff] at coprime
    obtain ⟨next, updated, powers⟩ := updated_of_coprime (R := R)
      (fun touched => apart (Or.inl touched)) coprime.1 evolve.1
    have valid : tracks H next tracked = batch.acc.value := powers.first
    obtain ⟨final, rest, ended⟩ := ih (valid.symm ▸ evolve.2)
      (fun touched => apart (Or.inr touched)) coprime.2
    rw [valid] at ended
    refine ⟨final, ?_, powers.trans ended⟩
    rw [updateAll, updated]
    exact rest

/-- A chain of updates that returned touched nothing tracked and met coprime products. -/
theorem of_updateAll_eq_ok {batches : List (Batch E T)} {final : Witness E T}
    (evolve : Evolve H (tracks H witness tracked) batches)
    (returned : updateAll R H tracked witness batches = .ok final) :
    ¬ Touched tracked (allAdditions batches) (allDeletions batches) ∧
      IsCoprime (H.primeHashProduct tracked) (H.primeHashProduct (allDeletions batches)) := by
  induction batches generalizing witness with
  | nil =>
    refine ⟨?_, isCoprime_one_right⟩
    intro h
    rcases h with ⟨t, -, added | deleted⟩
    · cases added
    · cases deleted
  | cons batch batches ih =>
    obtain ⟨next, updated, rest⟩ := Outcome.bind_eq_ok returned
    obtain ⟨untouched, coprime, powers⟩ :=
      (updateMembershipWitness_eq_ok_iff (R := R) evolve.1).mp updated
    have valid : tracks H next tracked = batch.acc.value := powers.first
    obtain ⟨untouched', coprime'⟩ := ih (valid.symm ▸ evolve.2) rest
    refine ⟨fun touched => ?_, ?_⟩
    · cases touched_append.mp touched with
      | inl here => exact untouched here
      | inr later => exact untouched' later
    · rw [primeHashProduct_allDeletions]
      exact coprime.mul_right coprime'

/-- Told apart from what is deleted, a touched witness is refused on the way. -/
theorem updateAll_of_touched (batches : List (Batch E T))
    (evolve : Evolve H (tracks H witness tracked) batches)
    (separates : H.Separates {t | t ∈ allDeletions batches ++ tracked})
    (touched : Touched tracked (allAdditions batches) (allDeletions batches)) :
    updateAll R H tracked witness batches = .err .badWitnessUpdate := by
  induction batches generalizing witness with
  | nil =>
    obtain ⟨t, -, added | deleted⟩ := touched
    · cases added
    · cases deleted
  | cons batch batches ih =>
    rw [updateAll]
    by_cases here : Touched tracked batch.additions batch.deletions
    · rw [updateMembershipWitness_of_touched here]
      rfl
    · have later := (touched_append.mp touched).resolve_left here
      have within {ts : List T} (sub : ∀ t ∈ ts, t ∈ allDeletions (batch :: batches)) :
          H.Separates {t | t ∈ ts ++ tracked} := by
        apply separates.mono
        intro t member
        cases List.mem_append.mp member with
        | inl deleted => exact List.mem_append_left _ (sub t deleted)
        | inr kept => exact List.mem_append_right _ kept
      have first := within fun t => List.mem_append_left (allDeletions batches) (a := t)
      have coprime := first.coprime_products fun t member deleted =>
        here ⟨t, member, Or.inr deleted⟩
      obtain ⟨next, updated, powers⟩ := updated_of_coprime (R := R) here coprime evolve.1
      have valid : tracks H next tracked = batch.acc.value := powers.first
      rw [updated]
      exact ih (valid.symm ▸ evolve.2)
        (within fun t => List.mem_append_right batch.deletions (b := t)) later

/-- Batch by batch or all at once: a chain of updates returns a witness exactly when a single
update by all additions and deletions does, and the same one. -/
theorem updateAll_eq_single_update (R : Rug) (H : Hashing) (tracked : List T)
    (witness : Witness E T) (batches : List (Batch E T))
    (evolve : Evolve H (exp witness.acc.value (H.primeHashProduct tracked)) batches) :
    let current : Accumulator E T :=
      ⟨last (exp witness.acc.value (H.primeHashProduct tracked)) batches⟩
    let single := current.updateMembershipWitness R H witness tracked
      (batches.flatMap Batch.additions) (batches.flatMap Batch.deletions)
    (∀ final, updateAll R H tracked witness batches = .ok final ↔ single = .ok final) ∧
      (H.Separates {t | t ∈ batches.flatMap Batch.deletions ++ tracked} →
        updateAll R H tracked witness batches = single) := by
  intro current single
  have since (final : Witness E T) (powers : Updated H witness tracked (allAdditions batches)
      (allDeletions batches) current final) :
      Since H witness tracked (allAdditions batches) (allDeletions batches) current := by
    have compatible := powers.compatible
    rw [← zpow_mul, mul_comm, zpow_mul] at compatible
    exact compatible.symm
  have same (untouched : ¬ Touched tracked (allAdditions batches) (allDeletions batches))
      (coprime : IsCoprime (H.primeHashProduct tracked)
        (H.primeHashProduct (allDeletions batches))) :
      updateAll R H tracked witness batches = single := by
    obtain ⟨final, returned, powers⟩ :=
      updateAll_of_coprime (R := R) batches evolve untouched coprime
    have once : single = .ok final :=
      (updateMembershipWitness_eq_ok_iff (since final powers)).mpr ⟨untouched, coprime, powers⟩
    rw [returned, once]
  refine ⟨fun final => ⟨fun returned => ?_, fun returned => ?_⟩, fun separates => ?_⟩
  · obtain ⟨untouched, coprime⟩ := of_updateAll_eq_ok evolve returned
    rw [← same untouched coprime, returned]
  · have untouched : ¬ Touched tracked (allAdditions batches) (allDeletions batches) := by
      intro touched
      have refused : single = .err .badWitnessUpdate :=
        updateMembershipWitness_of_touched touched
      rw [refused] at returned
      cases returned
    have coprime : IsCoprime (H.primeHashProduct tracked)
        (H.primeHashProduct (allDeletions batches)) := by
      by_contra shared
      have failed : single = .fault .assertFailed :=
        updateMembershipWitness_of_not_coprime untouched shared
      rw [failed] at returned
      cases returned
    rw [same untouched coprime, returned]
  · by_cases touched : Touched tracked (allAdditions batches) (allDeletions batches)
    · have refused : single = .err .badWitnessUpdate :=
        updateMembershipWitness_of_touched touched
      rw [refused]
      exact updateAll_of_touched batches evolve separates touched
    · exact same touched (separates.coprime_products fun t member deleted =>
        touched ⟨t, member, Or.inr deleted⟩)

/-- An element added in one batch and deleted in the next. -/
theorem updateAll_eq_single_update_of_two :
    let witness : Witness Cyclic Bool := ⟨⟨⟨1⟩⟩⟩
    let batches : List (Batch Cyclic Bool) := [⟨⟨⟨15⟩⟩, [false], []⟩, ⟨⟨⟨3⟩⟩, [], [false]⟩]
    updateAll Rug.gmp Hashing.sample [true] witness batches =
      (⟨⟨3⟩⟩ : Accumulator Cyclic Bool).updateMembershipWitness Rug.gmp Hashing.sample witness
        [true] [false] [false] := by
  intro witness batches
  have evolve : Evolve Hashing.sample (exp witness.acc.value
      (Hashing.sample.primeHashProduct [true])) batches := ⟨rfl, rfl, trivial⟩
  exact (updateAll_eq_single_update Rug.gmp Hashing.sample [true] witness batches evolve).2
    (Hashing.sample_separates.mono (Set.subset_univ _))

/-! ## Net changes -/

/-- Two accounts of one change, the same up to elements added and deleted again, update a
witness to the same one, whatever cofactors are used. -/
theorem update_of_same_net (R R' : Rug) (H : Hashing) (acc : Accumulator E T)
    (witness next next' : Witness E T)
    (tracked additions deletions additions' deletions' : List T)
    (net : (additions ++ deletions').Perm (additions' ++ deletions))
    (evolved : exp acc.value (H.primeHashProduct deletions) =
      exp (exp witness.acc.value (H.primeHashProduct tracked)) (H.primeHashProduct additions))
    (evolved' : exp acc.value (H.primeHashProduct deletions') =
      exp (exp witness.acc.value (H.primeHashProduct tracked)) (H.primeHashProduct additions'))
    (updated : acc.updateMembershipWitness R H witness tracked additions deletions = .ok next)
    (updated' : acc.updateMembershipWitness R' H witness tracked additions' deletions' =
      .ok next') : next = next' := by
  obtain ⟨-, coprime, powers⟩ := (updateMembershipWitness_eq_ok_iff evolved).mp updated
  obtain ⟨-, coprime', powers'⟩ := (updateMembershipWitness_eq_ok_iff evolved').mp updated'
  have exponents : H.primeHashProduct additions * H.primeHashProduct deletions' =
      H.primeHashProduct additions' * H.primeHashProduct deletions := by
    rw [← H.primeHashProduct_append, ← H.primeHashProduct_append, H.primeHashProduct_perm net]
  -- over both lists of deletions the two witnesses have the same two powers
  have left := powers.scale (H.primeHashProduct deletions')
  have right := powers'.scale (H.primeHashProduct deletions)
  rw [← zpow_mul, exponents] at left
  rw [← zpow_mul, mul_comm (H.primeHashProduct deletions')] at right
  have value := left.unique (coprime.mul_right coprime') right
  rcases next with ⟨⟨_⟩⟩
  rcases next' with ⟨⟨_⟩⟩
  cases value
  rfl

/-- Nothing at all, and one element added and deleted. -/
theorem update_of_same_net_of_one :
    let acc : Accumulator Cyclic Bool := ⟨⟨3⟩⟩
    let witness : Witness Cyclic Bool := ⟨⟨⟨1⟩⟩⟩
    ∃ next, acc.updateMembershipWitness Rug.gmp Hashing.sample witness [true] [] [] = .ok next ∧
      acc.updateMembershipWitness Rug.gmp Hashing.sample witness [true] [false] [false] =
        .ok next := by
  intro acc witness
  have coprime : IsCoprime (Hashing.sample.primeHashProduct [true])
      (Hashing.sample.primeHashProduct [false]) := by
    rw [Int.isCoprime_iff_gcd_eq_one]
    decide
  have untouched (ts : List Bool) (sub : ts ⊆ [false]) : ¬ Touched [true] ts ts := by
    intro h
    rcases h with ⟨t, member, here | here⟩
    all_goals
      have other := List.mem_singleton.mp (sub here)
      rw [List.mem_singleton.mp member] at other
      cases other
  have since (ts : List Bool) : Since Hashing.sample witness [true] ts ts acc := rfl
  obtain ⟨next, updated, -⟩ := updated_of_coprime (R := Rug.gmp)
    (untouched [] (List.nil_subset _)) isCoprime_one_right (since [])
  obtain ⟨next', updated', -⟩ := updated_of_coprime (R := Rug.gmp)
    (untouched [false] (List.Subset.refl _)) coprime (since [false])
  have same := update_of_same_net Rug.gmp Rug.gmp Hashing.sample acc witness next next' [true]
    [] [] [false] [false] (List.Perm.refl _) (since []) (since [false]) updated updated'
  exact ⟨next, updated, same ▸ updated'⟩

/-! ## Parts -/

/-- Splitting and updating commute: the part of an updated witness is the updated part. -/
theorem update_subset_square (R : Rug) (H : Hashing) (acc : Accumulator E T)
    (witness next part : Witness E T) (witnessSet witnessSubset additions deletions : List T)
    (evolved : exp acc.value (H.primeHashProduct deletions) =
      exp (exp witness.acc.value (H.primeHashProduct witnessSet)) (H.primeHashProduct additions))
    (updated : acc.updateMembershipWitness R H witness witnessSet additions deletions = .ok next)
    (taken : witness.computeSubsetWitness H witnessSet witnessSubset = .ok part) :
    ∃ part', next.computeSubsetWitness H witnessSet witnessSubset = .ok part' ∧
      acc.updateMembershipWitness R H part witnessSubset additions deletions = .ok part' := by
  obtain ⟨untouched, coprime, powers⟩ := (updateMembershipWitness_eq_ok_iff evolved).mp updated
  obtain ⟨members, q, factor, value⟩ := Witness.computeSubsetWitness_eq_ok_iff.mp taken
  refine ⟨⟨⟨next.acc.value ^ q⟩⟩, ?_, ?_⟩
  · exact Witness.computeSubsetWitness_eq_ok_iff.mpr ⟨members, q, factor, rfl⟩
  · have since : Since H part witnessSubset additions deletions acc := by
      have tracked : tracks H part witnessSubset = tracks H witness witnessSet := by
        change part.acc.value ^ H.primeHashProduct witnessSubset =
          witness.acc.value ^ H.primeHashProduct witnessSet
        rw [value, ← zpow_mul, mul_comm q, factor]
      unfold Since
      rw [tracked]
      exact evolved
    refine (updateMembershipWitness_eq_ok_iff since).mpr ⟨?_, ?_, ?_⟩
    · intro h
      obtain ⟨t, member, changed⟩ := h
      exact untouched ⟨t, members t member, changed⟩
    · exact coprime.of_isCoprime_of_dvd_left (Dvd.intro q factor)
    · unfold Updated at powers
      rw [← factor] at powers
      have raised := powers.zpow
      rw [← zpow_mul, mul_comm _ q, zpow_mul, ← value] at raised
      exact raised

/-- One of two elements, in an accumulator that did not change. -/
theorem update_subset_square_of_two :
    let acc : Accumulator Cyclic Bool := ⟨⟨15⟩⟩
    let witness : Witness Cyclic Bool := ⟨⟨⟨1⟩⟩⟩
    ∃ next part part', acc.updateMembershipWitness Rug.gmp Hashing.sample witness [true, false]
        [] [] = .ok next ∧
      witness.computeSubsetWitness Hashing.sample [true, false] [true] = .ok part ∧
      next.computeSubsetWitness Hashing.sample [true, false] [true] = .ok part' ∧
      acc.updateMembershipWitness Rug.gmp Hashing.sample part [true] [] [] = .ok part' := by
  intro acc witness
  have untouched : ¬ Touched [true, false] [] [] := by
    intro h
    rcases h with ⟨t, -, added | deleted⟩
    · cases added
    · cases deleted
  have since : Since Hashing.sample witness [true, false] [] [] acc := rfl
  obtain ⟨next, updated, -⟩ := updated_of_coprime (R := Rug.gmp) untouched isCoprime_one_right
    since
  have taken : witness.computeSubsetWitness Hashing.sample [true, false] [true] =
      .ok ⟨⟨⟨5⟩⟩⟩ := by decide
  obtain ⟨part', split, again⟩ := update_subset_square Rug.gmp Hashing.sample acc witness next
    ⟨⟨⟨5⟩⟩⟩ [true, false] [true] [] [] since updated taken
  exact ⟨next, _, part', updated, taken, split, again⟩

end Accumulator

end GroupAccumulator
