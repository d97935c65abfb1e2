import GroupAccumulator.VectorCommitmentOpen

/-!
# Commitments and their logs

The log of a commitment lists the index of every true bit written to it, once for each
write.  Whatever sets the updates were given, the commitment holds the product over its
log (`Written.value`).  So it depends on the log up to order only, and where `g` has
infinite order two commitments are equal exactly when their logs are permutations of each
other (`written_eq_iff`): how the writes were grouped into updates and what false bits
were written leaves no trace.

A caller who keeps the log and passes it as the set gets proofs that are accepted, as
long as no false bit is asked of an index in it (`log_updates`, `log_openings`).  False
bits of such indices are refused: what has been set stays set.
-/

namespace GroupAccumulator.VectorCommitment

open Accumulator

section

variable {E : Type} [AbelianUnknownOrderGroup E] [Hash E] [Hash ℤ]
variable {H : Hashing} {bits : List (Bool × ℤ)}

/-- The commitments that updates can lead to, each with its log. -/
inductive Written (R : Rug) (H : Hashing) : VectorCommitment E → List ℤ → Prop
  | empty : Written R H empty []
  | update {vc vc' : VectorCommitment E} {log accSet : List ℤ} {bits : List (Bool × ℤ)}
      {proof : VectorProof E} (before : Written R H vc log)
      (returned : vc.update R H accSet bits = .ok (vc', proof)) :
      Written R H vc' (log ++ indicesOf true bits)

theorem Written.value {R : Rug} {vc : VectorCommitment E} {log : List ℤ}
    (written : Written R H vc log) :
    vc.acc.value = exp unknownOrderElem (H.primeHashProduct log) := by
  induction written with
  | empty => exact (zpow_one (unknownOrderElem : E)).symm
  | @update vc vc' log accSet bits proof before returned value =>
    obtain ⟨-, after⟩ := of_update_eq_ok returned
    have power : vc'.acc.value = vc.acc.value ^ H.primeHashProduct (indicesOf true bits) := by
      rw [after]
      rfl
    rw [power, value, Hashing.primeHashProduct_append]
    exact (zpow_mul unknownOrderElem (H.primeHashProduct log) _).symm

/-! ## Indices -/

omit [Hash ℤ] in
/-- An index is not written both bits at once. -/
theorem not_mem_true_of_mem_false (distinct : (indices bits).Nodup) {i : ℤ}
    (zero : i ∈ indicesOf false bits) : i ∉ indicesOf true bits := by
  intro one
  obtain ⟨entry, unset, rfl⟩ := List.mem_map.mp zero
  obtain ⟨entry', set, same⟩ := List.mem_map.mp one
  obtain ⟨inside, isFalse⟩ := List.mem_filter.mp unset
  obtain ⟨inside', isTrue⟩ := List.mem_filter.mp set
  cases List.inj_on_of_nodup_map distinct inside' inside same
  rw [of_decide_eq_true isTrue] at isFalse
  cases isFalse

/-! ## Equal commitments -/

omit [Hash E] [Hash ℤ] in
/-- Powers of an element of infinite order determine their exponents. -/
theorem exponent_eq_of_infinite {g : E} (infinite : ∀ n : ℤ, exp g n = GroupTrait.id → n = 0)
    {m n : ℤ} (same : exp g m = exp g n) : m = n := by
  have quotient : exp g (m - n) = GroupTrait.id := by
    change g ^ (m - n) = 1
    rw [zpow_sub]
    exact mul_inv_eq_one.mpr same
  exact sub_eq_zero.mp (infinite _ quotient)

/-- Logs that are permutations of each other belong to one commitment.  Where `g` has
infinite order and `hash_to_prime` tells the indices apart, no others do. -/
theorem written_eq_iff (R : Rug) (H : Hashing) (vc vc' : VectorCommitment E) (log log' : List ℤ)
    (written : Written R H vc log) (written' : Written R H vc' log') :
    (log.Perm log' → vc = vc') ∧
      (H.Separates {i | i ∈ log ++ log'} →
        (∀ n : ℤ, exp (unknownOrderElem : E) n = GroupTrait.id → n = 0) →
        (vc = vc' ↔ log.Perm log')) := by
  have value := written.value
  have value' := written'.value
  have equal : log.Perm log' → vc = vc' := by
    intro perm
    rw [H.primeHashProduct_perm perm, ← value'] at value
    rcases vc with ⟨⟨value⟩⟩
    rcases vc' with ⟨⟨value'⟩⟩
    cases value
    rfl
  refine ⟨equal, fun separates infinite => ⟨fun same => ?_, equal⟩⟩
  rw [same, value'] at value
  have products := exponent_eq_of_infinite infinite value
  have mirrored : H.Separates {i | i ∈ log' ++ log} := by
    apply separates.mono
    intro i member
    exact List.mem_append.mpr (List.mem_append.mp member).symm
  have left : log'.Subperm log := separates.product_dvd_iff.mp (dvd_of_eq products)
  have right : log.Subperm log' := mirrored.product_dvd_iff.mp (dvd_of_eq products.symm)
  exact right.antisymm left

end

section

open Sample

/-- The commitments to the first two indices, written in one update and in two. -/
def together : VectorCommitment Cyclic :=
  (afterUpdate Hashing.sample empty [(true, 0), (true, 1)]).1

def inTurn : VectorCommitment Cyclic :=
  (afterUpdate Hashing.sample (afterUpdate Hashing.sample empty [(false, 2), (true, 1)]).1
    [(true, 0)]).1

/-- The first index is written once more. -/
def again : VectorCommitment Cyclic := (afterUpdate Hashing.sample together [(true, 0)]).1

theorem Written.afterUpdate {vc : VectorCommitment Cyclic} {log : List ℤ}
    {bits : List (Bool × ℤ)} (before : Written Rug.gmp Hashing.sample vc log)
    (distinct : (indices bits).Nodup) :
    Written Rug.gmp Hashing.sample (afterUpdate Hashing.sample vc bits).1
      (log ++ indicesOf true bits) := by
  have run : vc.update Rug.gmp Hashing.sample [] bits = _ :=
    update_eq_ok distinct isCoprime_one_right
  exact .update before run

theorem written_together : Written Rug.gmp Hashing.sample together [0, 1] :=
  Written.empty.afterUpdate (by decide)

theorem written_inTurn : Written Rug.gmp Hashing.sample inTurn [1, 0] :=
  (Written.empty.afterUpdate (by decide)).afterUpdate (by decide)

theorem written_again : Written Rug.gmp Hashing.sample again [0, 1, 0] :=
  written_together.afterUpdate (by decide)

/-- The order and the grouping of the writes leave no trace, a repetition does. -/
theorem written_eq_iff_together : together = inTurn ∧ together ≠ again := by
  obtain ⟨equal, -⟩ := written_eq_iff Rug.gmp Hashing.sample together inTurn [0, 1] [1, 0]
    written_together written_inTurn
  obtain ⟨-, iff⟩ := written_eq_iff Rug.gmp Hashing.sample together again [0, 1] [0, 1, 0]
    written_together written_again
  refine ⟨equal (by decide), fun same => ?_⟩
  have perm := (iff (Hashing.sample_separates_indices (by decide)) Cyclic.infinite).mp same
  exact absurd perm (by decide)

end

/-! ## Updates given the log -/

section

variable {E : Type} [AbelianUnknownOrderGroup E] [Hash E] [Hash ℤ]
variable {R : Rug} {H : Hashing} {vc : VectorCommitment E} {log : List ℤ}
variable {bits : List (Bool × ℤ)}

/-- False bits of indices that are not logged have nothing in common with the set. -/
theorem coprime_log (separates : H.Separates {i | i ∈ log ++ indices bits})
    (distinct : (indices bits).Nodup) (apart : ∀ i ∈ indicesOf false bits, i ∉ log) :
    IsCoprime (H.primeHashProduct (indicesOf false bits))
      (H.primeHashProduct (log ++ indicesOf true bits)) := by
  apply Hashing.Separates.coprime_products
  · apply separates.mono
    intro i member
    rcases List.mem_append.mp member with member | zero
    · cases List.mem_append.mp member with
      | inl set => exact List.mem_append_left _ set
      | inr one => exact List.mem_append_right _ (mem_indices_of_mem_indicesOf one)
    · exact List.mem_append_right _ (mem_indices_of_mem_indicesOf zero)
  · intro i zero member
    cases List.mem_append.mp member with
    | inl set => exact apart i zero set
    | inr one => exact not_mem_true_of_mem_false distinct zero one

theorem update_eq_conflicting {accSet : List ℤ} (repeated : ¬ (indices bits).Nodup) :
    vc.update R H accSet bits = .err .conflictingIndices := by
  rw [update, groupElemsByBit_eq, if_neg repeated]
  rfl

theorem update_eq_unexpected {accSet : List ℤ} (distinct : (indices bits).Nodup)
    (shared : ¬ IsCoprime (H.primeHashProduct (indicesOf false bits))
      (H.primeHashProduct accSet)) : vc.update R H accSet bits = .err .unexpectedState := by
  have refused : proveNonmembership R H (afterUpdate H vc bits).1.acc accSet
      (indicesOf false bits) = _ := proveNonmembership_eq_err shared
  rw [update, groupElemsByBit_eq, if_pos distinct]
  change Outcome.mapErr _ (proveNonmembership R H (afterUpdate H vc bits).1.acc accSet
    (indicesOf false bits)) >>= _ = _
  rw [refused]
  rfl

variable [DecidableEq E]

/-- Given the log with the new true bits as the set, an update refuses repeated indices
and false bits of logged ones; any other returns a proof that is accepted. -/
theorem log_updates (R : Rug) (H : Hashing) (vc : VectorCommitment E) (log : List ℤ)
    (bits : List (Bool × ℤ)) (written : Written R H vc log)
    (separates : H.Separates {i | i ∈ log ++ indices bits}) :
    let accSet := log ++ indicesOf true bits
    (vc.update R H accSet bits = .err .conflictingIndices ↔ ¬ (indices bits).Nodup) ∧
      (vc.update R H accSet bits = .err .unexpectedState ↔
        (indices bits).Nodup ∧ ∃ i ∈ indicesOf false bits, i ∈ log) ∧
      ((indices bits).Nodup → (∀ i ∈ indicesOf false bits, i ∉ log) →
        Accepts R H vc accSet bits) := by
  intro accSet
  by_cases distinct : (indices bits).Nodup
  · by_cases shared : ∃ i ∈ indicesOf false bits, i ∈ log
    · obtain ⟨i, zero, set⟩ := shared
      have refused : vc.update R H accSet bits = .err .unexpectedState := by
        apply update_eq_unexpected distinct
        intro coprime
        have prime := separates.prime i (List.mem_append_left _ set)
        exact prime.not_isUnit (coprime.isUnit_of_dvd' (H.hashToPrime_dvd_product zero)
          (H.hashToPrime_dvd_product (List.mem_append_left _ set)))
      rw [refused]
      refine ⟨?_, iff_of_true rfl ⟨distinct, i, zero, set⟩, fun _ apart => ?_⟩
      · exact iff_of_false (fun h => by cases h) (not_not.mpr distinct)
      · exact absurd set (apart i zero)
    · have apart : ∀ i ∈ indicesOf false bits, i ∉ log := fun i zero set => shared ⟨i, zero, set⟩
      have coprime := coprime_log separates distinct apart
      obtain ⟨vc', proof, run, accepted⟩ := accepts_new_set (R := R) written.value distinct coprime
      refine ⟨?_, ?_, fun _ _ => ⟨vc', proof, run, accepted⟩⟩
      · rw [run]
        exact iff_of_false (fun h => by cases h) (not_not.mpr distinct)
      · rw [run]
        exact iff_of_false (fun h => by cases h) fun h => shared h.2
  · rw [update_eq_conflicting distinct]
    refine ⟨iff_of_true rfl distinct, ?_, fun nodup => absurd nodup distinct⟩
    exact iff_of_false (fun h => by cases h) fun h => distinct h.1

end

open Sample in
/-- Beside indices of which one was written twice: a fresh true and a fresh false bit are written
with a proof that is accepted, a false bit of a logged index and a repeated index are refused. -/
theorem log_updates_again :
    Accepts Rug.gmp Hashing.sample again [0, 1, 0, 2] [(true, 2), (false, 3)] ∧
      again.update Rug.gmp Hashing.sample [0, 1, 0, 2] [(true, 2), (false, 1)] =
        .err .unexpectedState ∧
      again.update Rug.gmp Hashing.sample [0, 1, 0, 2] [(true, 2), (false, 2)] =
        .err .conflictingIndices := by
  obtain ⟨-, -, accepts⟩ := log_updates Rug.gmp Hashing.sample again [0, 1, 0]
    [(true, 2), (false, 3)] written_again (Hashing.sample_separates_indices (by decide))
  obtain ⟨-, unexpected, -⟩ := log_updates Rug.gmp Hashing.sample again [0, 1, 0]
    [(true, 2), (false, 1)] written_again (Hashing.sample_separates_indices (by decide))
  obtain ⟨conflicting, -, -⟩ := log_updates Rug.gmp Hashing.sample again [0, 1, 0]
    [(true, 2), (false, 2)] written_again (Hashing.sample_separates_indices (by decide))
  exact ⟨accepts (by decide) (by decide), unexpected.mpr (by decide),
    conflicting.mpr (by decide)⟩

/-! ## Openings given the log -/

section

variable {E : Type} [AbelianUnknownOrderGroup E] [Hash E] [Hash ℤ]
variable {R : Rug} {H : Hashing} {vc : VectorCommitment E} {log ones : List ℤ}

/-- The witness of an index for the product over the rest of the log. -/
def logWitness (H : Hashing) (log : List ℤ) (i : ℤ) : ℤ × Witness E ℤ :=
  (i, ⟨«from» H (log.erase i)⟩)

theorem Written.valid (written : Written R H vc log) (set : ∀ i ∈ ones, i ∈ log) :
    Valid H vc.acc.value (ones.map (logWitness H log)) := by
  intro entry member
  obtain ⟨i, one, rfl⟩ := List.mem_map.mp member
  have product : H.primeHashProduct (log.erase i) * H.hashToPrime i = H.primeHashProduct log := by
    rw [mul_comm, ← Hashing.primeHashProduct_cons]
    exact H.primeHashProduct_perm (List.perm_cons_erase (set i one)).symm
  rw [written.value, ← product]
  exact (zpow_mul unknownOrderElem (H.primeHashProduct (log.erase i)) (H.hashToPrime i)).symm

variable [DecidableEq E]

/-- Given the log as the set, an opening of indices that are not in it and of distinct ones
that are, with their witnesses, returns a proof that is accepted for the bits in any order;
a logged index among the former is refused. -/
theorem log_openings (R : Rug) (H : Hashing) (vc : VectorCommitment E) (log zeros ones : List ℤ)
    (written : Written R H vc log) (separates : H.Separates {i | i ∈ log ++ zeros})
    (distinct : zeros.Nodup ∧ ones.Nodup) (set : ∀ i ∈ ones, i ∈ log) :
    ((∀ z ∈ zeros, z ∉ log) →
      ∃ proof, vc.open_ R H log zeros (ones.map (logWitness H log)) = .ok proof ∧
        ∀ bits, bits.Perm (opened zeros ones) → vc.verify H bits proof = true) ∧
      ((∃ z ∈ zeros, z ∈ log) →
        vc.open_ R H log zeros (ones.map (logWitness H log)) = .err .invalidOpen) := by
  have firsts : (ones.map (logWitness (E := E) H log)).map Prod.fst = ones := by
    rw [List.map_map]
    exact List.map_id ones
  have distinctFirsts : ((ones.map (logWitness (E := E) H log)).map Prod.fst).Nodup := by
    rw [firsts]
    exact distinct.2
  have inside : ∀ i ∈ (ones.map (logWitness (E := E) H log)).map Prod.fst, i ∈ log := by
    rw [firsts]
    exact set
  constructor
  · intro unset
    have opening := open_of_valid (R := R) written.value separates distinctFirsts inside
      distinct.1 unset (written.valid set)
    rw [firsts] at opening
    exact opening
  · apply open_of_set separates distinctFirsts
    exact separates.mono fun i one => List.mem_append_left _ (inside i one)

end

open Sample in
/-- Both logged indices are opened, with an unwritten one between them; with one of them among
the zeros nothing is. -/
theorem log_openings_again :
    (∃ proof, again.open_ Rug.gmp Hashing.sample [0, 1, 0] [2]
        ([0, 1].map (logWitness Hashing.sample [0, 1, 0])) = .ok proof ∧
      again.verify Hashing.sample [(true, 1), (false, 2), (true, 0)] proof = true) ∧
      again.open_ Rug.gmp Hashing.sample [0, 1, 0] [2, 1]
        ([0, 1].map (logWitness Hashing.sample [0, 1, 0])) = .err .invalidOpen := by
  obtain ⟨complete, -⟩ := log_openings Rug.gmp Hashing.sample again [0, 1, 0] [2] [0, 1]
    written_again (Hashing.sample_separates_indices (by decide)) (by decide) (by decide)
  obtain ⟨-, shared⟩ := log_openings Rug.gmp Hashing.sample again [0, 1, 0] [2, 1] [0, 1]
    written_again (Hashing.sample_separates_indices (by decide)) (by decide) (by decide)
  obtain ⟨proof, returned, accepted⟩ := complete (by decide)
  exact ⟨⟨proof, returned, accepted _ (by decide)⟩, shared (by decide)⟩

end GroupAccumulator.VectorCommitment
