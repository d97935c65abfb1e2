import GroupAccumulator.Membership
import GroupAccumulator.VectorCommitmentUpdate

/-!
# Opening a vector commitment

`open_` proves that some indices are unset and others set.  Its membership half
is a batch deletion in disguise, its nonmembership half the one of the
accumulator; the verifier regroups the bits it is given, in whatever order, and
recomputes both products.

`groups_of_perm` is about the regrouping: up to order the two lists come back.
`open_complete` is the resulting completeness, with the two reasons to refuse.
-/

namespace GroupAccumulator.VectorCommitment

open Accumulator

/-! ## Regrouping -/

/-- The bits an opening of `zeros` and `ones` is about. -/
def opened (zeros ones : List ℤ) : List (Bool × ℤ) :=
  zeros.map (fun i => (false, i)) ++ ones.map (fun i => (true, i))

variable {zeros ones : List ℤ} {bits : List (Bool × ℤ)}

theorem indices_opened : indices (opened zeros ones) = zeros ++ ones := by
  unfold indices opened
  rw [List.map_append, List.map_map, List.map_map]
  exact congrArg₂ _ (List.map_id zeros) (List.map_id ones)

theorem indicesOf_opened :
    indicesOf false (opened zeros ones) = zeros ∧ indicesOf true (opened zeros ones) = ones := by
  unfold indicesOf indices opened
  constructor
  · simp [List.filter_append, List.filter_map, Function.comp_def]
  · simp [List.filter_append, List.filter_map, Function.comp_def]

/-- In any order the bits are grouped into the two lists, reordered. -/
theorem groups_of_perm (distinct : (zeros ++ ones).Nodup) (perm : bits.Perm (opened zeros ones)) :
    (indices bits).Nodup ∧ (indicesOf false bits).Perm zeros ∧
      (indicesOf true bits).Perm ones := by
  have whole : (indices bits).Perm (zeros ++ ones) := by
    rw [← indices_opened]
    exact perm.map Prod.snd
  have part (bit : Bool) : (indicesOf bit bits).Perm (indicesOf bit (opened zeros ones)) :=
    (perm.filter _).map Prod.snd
  refine ⟨whole.nodup_iff.mpr distinct, ?_, ?_⟩
  · exact (part false).trans (List.Perm.of_eq indicesOf_opened.1)
  · exact (part true).trans (List.Perm.of_eq indicesOf_opened.2)

section

variable {E : Type} [AbelianUnknownOrderGroup E] [DecidableEq E] [Hash E] [Hash ℤ]
variable {R : Rug} {H : Hashing} {vc : VectorCommitment E} {S : List ℤ}
variable {entries : List (ℤ × Witness E ℤ)}

/-! ## The two halves -/

theorem open_eq_ok {membership : MembershipProof E ℤ} {nonmembership : NonmembershipProof E ℤ}
    (set : vc.acc.proveMembership R H entries = .ok membership)
    (unset : vc.acc.proveNonmembership R H S zeros = .ok nonmembership) :
    vc.open_ R H S zeros entries = .ok ⟨membership, nonmembership⟩ := by
  unfold open_
  rw [set, unset]
  rfl

/-- Either half that is refused makes the opening invalid. -/
theorem open_eq_err
    (refused : vc.acc.proveMembership R H entries = .err .badWitness ∨
      (∃ membership, vc.acc.proveMembership R H entries = .ok membership) ∧
        vc.acc.proveNonmembership R H S zeros = .err .inputsNotCoprime) :
    vc.open_ R H S zeros entries = .err .invalidOpen := by
  unfold open_
  rcases refused with bad | ⟨⟨membership, set⟩, shared⟩
  · rw [bad]
    rfl
  · rw [set, shared]
    rfl

theorem proveMembership_eq_err (bad : ¬ Valid H vc.acc.value entries) :
    vc.acc.proveMembership R H entries = .err .badWitness := by
  have refused : vc.acc.delete_ R H entries = .err .badWitness := delete_fold_of_not_valid bad
  rw [proveMembership, delete, refused]
  rfl

theorem proveMembership_eq_ok (valid : Valid H vc.acc.value entries)
    (coprime : Coprime H entries) :
    ∃ membership, vc.acc.proveMembership R H entries = .ok membership := by
  rcases delete_fold_eq_ok (R := R) valid coprime with ⟨W, returned, -⟩
  have deleted : vc.acc.delete_ R H entries = _ := returned
  rw [proveMembership, delete, deleted]
  exact ⟨_, rfl⟩

/-- A proof of both halves is accepted for the bits in any order. -/
theorem verify_opened {membership : MembershipProof E ℤ}
    {nonmembership : NonmembershipProof E ℤ} (distinct : (zeros ++ ones).Nodup)
    (perm : bits.Perm (opened zeros ones))
    (set : ∀ elems : List ℤ, elems.Perm ones →
      vc.acc.verifyMembershipBatch H elems membership = true)
    (unset : ∀ elems : List ℤ, elems.Perm zeros →
      vc.acc.verifyNonmembership H elems nonmembership = true) :
    vc.verify H bits ⟨membership, nonmembership⟩ = true := by
  rcases groups_of_perm distinct perm with ⟨nodup, zero, one⟩
  unfold verify
  rw [groupElemsByBit_eq, if_pos nodup]
  exact Bool.and_eq_true_iff.mpr ⟨set _ one, unset _ zero⟩

/-! ## Completeness -/

/-- The nonmembership half, about the commitment to `S`. -/
theorem proveNonmembership_accepted (commits : vc.acc.value = exp unknownOrderElem
      (H.primeHashProduct S))
    (coprime : IsCoprime (H.primeHashProduct zeros) (H.primeHashProduct S)) :
    ∃ nonmembership, vc.acc.proveNonmembership R H S zeros = .ok nonmembership ∧
      vc.acc.verifyNonmembership H zeros nonmembership = true := by
  have acc : vc.acc = «from» H S := by
    rcases vc with ⟨⟨value⟩⟩
    cases commits
    rfl
  rw [acc]
  exact (nonmembership_complete R H S zeros).2.1 (Int.isCoprime_iff_gcd_eq_one.mp coprime)

/-- Unset and distinct set indices with valid witnesses are opened. -/
theorem open_of_valid (commits : vc.acc.value = exp unknownOrderElem (H.primeHashProduct S))
    (separates : H.Separates {i | i ∈ S ++ zeros}) (distinct : (entries.map Prod.fst).Nodup)
    (set : ∀ i ∈ entries.map Prod.fst, i ∈ S) (nodup : zeros.Nodup) (unset : ∀ z ∈ zeros, z ∉ S)
    (valid : Valid H vc.acc.value entries) :
    ∃ proof, vc.open_ R H S zeros entries = .ok proof ∧
      ∀ bits, bits.Perm (opened zeros (entries.map Prod.fst)) →
        vc.verify H bits proof = true := by
  have coprime : Coprime H entries :=
    coprime_of_separates separates distinct fun i member => List.mem_append_left _ (set i member)
  obtain ⟨membership, proved⟩ := proveMembership_eq_ok (R := R) valid coprime
  obtain ⟨nonmembership, returned, accepted⟩ := proveNonmembership_accepted (R := R) commits
    (separates.coprime_products fun z zero => unset z zero)
  refine ⟨_, open_eq_ok proved returned, fun bits perm => ?_⟩
  have apart : (zeros ++ entries.map Prod.fst).Nodup := by
    refine List.nodup_append.mpr ⟨nodup, distinct, ?_⟩
    intro z zero i one same
    exact unset z zero (same ▸ set i one)
  refine verify_opened apart perm ?_ ?_
  · intro elems permuted
    exact (proves_of_proveMembership proved).verify_batch permuted
  · intro elems permuted
    rw [verifyNonmembership_perm permuted]
    exact accepted

/-- An invalid witness is refused before anything else is looked at. -/
theorem open_of_invalid (invalid : ∃ one ∈ entries,
      exp one.2.acc.value (H.hashToPrime one.1) ≠ vc.acc.value) :
    vc.open_ R H S zeros entries = .err .invalidOpen := by
  obtain ⟨one, member, bad⟩ := invalid
  exact open_eq_err (Or.inl (proveMembership_eq_err fun valid => bad (valid one member)))

/-- A set index among the zeros is refused, at the latest by the nonmembership half. -/
theorem open_of_set (separates : H.Separates {i | i ∈ S ++ zeros})
    (distinct : (entries.map Prod.fst).Nodup)
    (separatesOnes : H.Separates {i | i ∈ entries.map Prod.fst})
    (shared : ∃ z ∈ zeros, z ∈ S) : vc.open_ R H S zeros entries = .err .invalidOpen := by
  by_cases valid : Valid H vc.acc.value entries
  · have coprime : Coprime H entries :=
      coprime_of_separates separatesOnes distinct fun i member => member
    have refused : vc.acc.proveNonmembership R H S zeros = .err .inputsNotCoprime := by
      apply proveNonmembership_eq_err
      intro unit
      exact separates.gcd_ne_one_iff.mpr shared (Int.isCoprime_iff_gcd_eq_one.mp unit)
    exact open_eq_err (Or.inr ⟨proveMembership_eq_ok valid coprime, refused⟩)
  · exact open_eq_err (Or.inl (proveMembership_eq_err valid))

/-- An opening of unset and set indices with valid witnesses returns a proof that
is accepted for the bits in any order.  A set index among the zeros makes it return
`InvalidOpen`, whatever witnesses come with distinct indices, and so does an invalid
witness, whatever it is for. -/
theorem open_complete (R : Rug) (H : Hashing) (vc : VectorCommitment E) (S zeros : List ℤ)
    (ones : List (ℤ × Witness E ℤ))
    (commits : vc.acc.value = exp unknownOrderElem (H.primeHashProduct S))
    (separates : H.Separates {i | i ∈ S ++ zeros}) :
    ((ones.map Prod.fst).Nodup → (∀ i ∈ ones.map Prod.fst, i ∈ S) →
      zeros.Nodup → (∀ z ∈ zeros, z ∉ S) →
      (∀ one ∈ ones, exp one.2.acc.value (H.hashToPrime one.1) = vc.acc.value) →
      ∃ proof, vc.open_ R H S zeros ones = .ok proof ∧
        ∀ bits : List (Bool × ℤ),
          bits.Perm (zeros.map (fun z => (false, z)) ++ ones.map (fun one => (true, one.1))) →
          vc.verify H bits proof = true) ∧
      ((∃ z ∈ zeros, z ∈ S) → (ones.map Prod.fst).Nodup →
        H.Separates {i | i ∈ ones.map Prod.fst} →
        vc.open_ R H S zeros ones = .err .invalidOpen) ∧
      ((∃ one ∈ ones, exp one.2.acc.value (H.hashToPrime one.1) ≠ vc.acc.value) →
        vc.open_ R H S zeros ones = .err .invalidOpen) := by
  refine ⟨?_, fun shared distinct separatesOnes => open_of_set separates distinct separatesOnes
    shared, open_of_invalid⟩
  intro distinct set nodup unset valid
  obtain ⟨proof, returned, accepted⟩ :=
    open_of_valid (R := R) commits separates distinct set nodup unset valid
  refine ⟨proof, returned, fun bits perm => accepted bits ?_⟩
  unfold opened
  rw [List.map_map]
  exact perm

end

open Sample in
/-- Two set indices and an unset one, over the infinite cyclic group: the bits are verified with
the unset one between the others; a set index among the zeros and a wrong witness for an index
that is not set are refused. -/
theorem open_complete_three_indices :
    let vc : VectorCommitment Cyclic := ⟨⟨⟨15⟩⟩⟩
    let ones : List (ℤ × Witness Cyclic ℤ) := [(0, ⟨⟨⟨3⟩⟩⟩), (1, ⟨⟨⟨5⟩⟩⟩)]
    (∃ proof, vc.open_ Rug.gmp Hashing.sample [0, 1] [2] ones = .ok proof ∧
      vc.verify Hashing.sample [(true, 1), (false, 2), (true, 0)] proof = true) ∧
      vc.open_ Rug.gmp Hashing.sample [0, 1] [2, 1] ones = .err .invalidOpen ∧
      vc.open_ Rug.gmp Hashing.sample [0, 1] [2] [(3, ⟨⟨⟨1⟩⟩⟩)] = .err .invalidOpen := by
  intro vc ones
  have commits : vc.acc.value =
      exp unknownOrderElem (Hashing.sample.primeHashProduct [(0 : ℤ), 1]) := by decide
  obtain ⟨complete, -, -⟩ := open_complete Rug.gmp Hashing.sample vc [0, 1] [2] ones commits
    (Hashing.sample_separates_indices (by decide))
  obtain ⟨proof, returned, accepted⟩ :=
    complete (by decide) (by decide) (by decide) (by decide) (by decide)
  obtain ⟨-, shared, -⟩ := open_complete Rug.gmp Hashing.sample vc [0, 1] [2, 1] ones commits
    (Hashing.sample_separates_indices (by decide))
  obtain ⟨-, -, invalid⟩ := open_complete Rug.gmp Hashing.sample vc [0, 1] [2]
    [(3, ⟨⟨⟨1⟩⟩⟩)] commits (Hashing.sample_separates_indices (by decide))
  refine ⟨⟨proof, returned, accepted _ (by decide)⟩, ?_, invalid (by decide)⟩
  exact shared (by decide) (by decide) (Hashing.sample_separates_indices (by decide))

end GroupAccumulator.VectorCommitment
