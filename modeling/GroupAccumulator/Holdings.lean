import GroupAccumulator.AccumulatorRuns
import GroupAccumulator.Membership
import GroupAccumulator.Nonmembership
import GroupAccumulator.WitnessCatchUp
import Mathlib.Algebra.Order.Group.Multiset

/-!
# Everything the calls can produce

Accumulators, witnesses and proofs are values: whoever holds them may keep old
ones, pass them on and go on from any of them.  `Obtained` is every holding some
sequence of calls can lead to, each call made on holdings obtained before, and
with it the multiset its accumulator commits to.  There is one constructor for
each call; a call that returns no value produces nothing.

`Holding.Honest` says which holding it must be: the element, witness or proof
computed from the multiset alone.  It is kept by every call
(`Obtained.honest`), so what is held does not depend on the way there:

* holdings for one multiset agree (`obtained_agree`), and every proof is
  accepted by every accumulator for it;
* no call fails that the contents allow (`obtained_calls_succeed`).
-/

namespace GroupAccumulator.Accumulator

open Theory

variable {E T : Type} [AbelianUnknownOrderGroup E] [DecidableEq T] [Hash T]
variable {R : Rug} {H : Hashing} {S : Set T} {M M' : Multiset T} {acc acc' : Accumulator E T}
variable {tracked elems : List T} {w w' : Witness E T} {batch : List (T × Witness E T)}

/-! ## Contents -/

omit [AbelianUnknownOrderGroup E] [DecidableEq T] [Hash T] in
theorem within_add (within : ∀ e ∈ M, e ∈ S) {xs : List T} (new : ∀ x ∈ xs, x ∈ S) :
    ∀ e ∈ M + (xs : Multiset T), e ∈ S := by
  intro e member
  cases Multiset.mem_add.mp member with
  | inl old => exact within e old
  | inr added => exact new e added

omit [AbelianUnknownOrderGroup E] [Hash T] in
theorem within_sub (within : ∀ e ∈ M, e ∈ S) {N : Multiset T} : ∀ e ∈ M - N, e ∈ S :=
  fun e member => within e (Multiset.mem_of_le (Multiset.sub_le_self M N) member)

/-! ## Witnesses -/

/-- A witness computed from the multiset. -/
structure Witnesses (H : Hashing) (M : Multiset T) (tracked : List T) (w : Witness E T) :
    Prop where
  contained : (tracked : Multiset T) ≤ M
  rest : Represents H (M - (tracked : Multiset T)) w.acc

omit [AbelianUnknownOrderGroup E] in
theorem product_sub (contained : (tracked : Multiset T) ≤ M) :
    product H (M - (tracked : Multiset T)) * H.primeHashProduct tracked = product H M := by
  rw [← product_coe, ← product_add, tsub_add_cancel_of_le contained]

/-- A witness raised to the product over its elements is the accumulator. -/
theorem Witnesses.power (witnesses : Witnesses H M tracked w) :
    w.acc.value ^ H.primeHashProduct tracked = unknownOrderElem ^ product H M := by
  have value : w.acc.value = unknownOrderElem ^ product H (M - (tracked : Multiset T)) :=
    witnesses.rest
  rw [value, ← zpow_mul, product_sub witnesses.contained]

theorem Witnesses.wrap (rep : Represents H M acc) (xs : List T) :
    Witnesses H (M + (xs : Multiset T)) xs ⟨acc⟩ := by
  refine ⟨Multiset.le_add_left _ _, ?_⟩
  rw [add_tsub_cancel_right]
  exact rep

/-! ## Parts of witnesses -/

/-- A part of a witness, raised to the rest of its elements. -/
theorem Witnesses.part (witnesses : Witnesses H M tracked w) {part : List T}
    (contained : (part : Multiset T) ≤ tracked) {q : ℤ}
    (factor : H.primeHashProduct part * q = H.primeHashProduct tracked)
    (value : w'.acc.value = w.acc.value ^ q) : Witnesses H M part w' := by
  refine ⟨contained.trans witnesses.contained, ?_⟩
  have quotient : q = product H ((tracked : Multiset T) - (part : Multiset T)) := by
    apply mul_left_cancel₀ (H.primeHashProduct_ne_zero part)
    rw [factor, mul_comm, product_sub contained, product_coe]
  have rest : w.acc.value = unknownOrderElem ^ product H (M - (tracked : Multiset T)) :=
    witnesses.rest
  have split : M - (part : Multiset T) =
      (M - (tracked : Multiset T)) + ((tracked : Multiset T) - (part : Multiset T)) :=
    (tsub_add_tsub_cancel witnesses.contained contained).symm
  change w'.acc.value = unknownOrderElem ^ product H (M - (part : Multiset T))
  rw [value, rest, quotient, split, product_add, zpow_mul]

theorem Witnesses.subset (witnesses : Witnesses H M tracked w) (separates : H.Separates S)
    (within : ∀ e ∈ M, e ∈ S)
    (taken : w.computeSubsetWitness H tracked elems = .ok w') : Witnesses H M elems w' := by
  obtain ⟨members, q, factor, value⟩ := Witness.computeSubsetWitness_eq_ok_iff.mp taken
  have apart : H.Separates {t | t ∈ tracked ++ elems} := by
    apply separates.mono
    intro t member
    apply within t
    apply Multiset.mem_of_le witnesses.contained
    cases List.mem_append.mp member with
    | inl whole => exact whole
    | inr part => exact members t part
  have contained : elems.Subperm tracked := apart.product_dvd_iff.mp (Dvd.intro q factor)
  exact witnesses.part (Multiset.coe_le.mpr contained) factor value

theorem Witnesses.individual (witnesses : Witnesses H M elems w)
    {ws : List (T × Witness E T)} {entry : T × Witness E T}
    (split : Returns (fun fuel => w.computeIndividualWitnesses H fuel elems) ws)
    (member : entry ∈ ws) : Witnesses H M [entry.1] entry.2 := by
  by_cases empty : elems = []
  · subst empty
    obtain ⟨n, run⟩ := split.exists_eq
    obtain ⟨roots, -, returned⟩ := Exec.bind_eq_ok run
    cases returned
    cases member
  · obtain ⟨ws', returns, firsts, joint⟩ :=
      Witness.computeIndividualWitnesses_returns (H := H) w elems empty
    cases split.unique returns
    have root := joint.zpow_ediv (H.hashToPrime_ne_zero entry.1)
      (List.mem_map_of_mem (f := fun x : T × Witness E T => (H.hashToPrime x.1, x.2.acc.value))
        member)
    have listed : entry.1 ∈ elems := firsts ▸ List.mem_map_of_mem member
    rw [exponent_primeWitnesses, firsts] at root
    refine witnesses.part ?_ ?_ root.symm
    · exact Multiset.singleton_le.mpr listed
    · rw [H.primeHashProduct_singleton]
      exact Int.mul_ediv_cancel' (H.hashToPrime_dvd_product listed)

/-! ## Updates -/

/-- The old witness and the new accumulator are related as an update needs it. -/
theorem Witnesses.since (witnesses : Witnesses H M tracked w) (rep : Represents H M' acc)
    {additions deletions : List T}
    (changed : M' + (deletions : Multiset T) = M + (additions : Multiset T)) :
    Since H w tracked additions deletions acc := by
  have value : acc.value = unknownOrderElem ^ product H M' := rep
  change acc.value ^ H.primeHashProduct deletions =
    (w.acc.value ^ H.primeHashProduct tracked) ^ H.primeHashProduct additions
  rw [value, witnesses.power, ← zpow_mul, ← zpow_mul, ← product_coe, ← product_coe,
    ← product_add, ← product_add, changed]

/-- What an update returned is the witness computed from the new multiset. -/
theorem Witnesses.update (witnesses : Witnesses H M tracked w) (rep : Represents H M' acc)
    {additions deletions : List T}
    (changed : M' + (deletions : Multiset T) = M + (additions : Multiset T))
    (updated : acc.updateMembershipWitness R H w tracked additions deletions = .ok w') :
    Witnesses H M' tracked w' := by
  have since := witnesses.since rep changed
  obtain ⟨untouched, coprime, powers⟩ := (updateMembershipWitness_eq_ok_iff since).mp updated
  have kept : (tracked : Multiset T) ≤ M' := by
    rw [Multiset.le_iff_count]
    intro t
    by_cases member : t ∈ tracked
    · have counts := congrArg (Multiset.count t) changed
      have added : Multiset.count t (additions : Multiset T) = 0 :=
        Multiset.count_eq_zero.mpr fun here => untouched ⟨t, member, Or.inl here⟩
      have deleted : Multiset.count t (deletions : Multiset T) = 0 :=
        Multiset.count_eq_zero.mpr fun here => untouched ⟨t, member, Or.inr here⟩
      rw [Multiset.count_add, Multiset.count_add, added, deleted] at counts
      have before := Multiset.le_iff_count.mp witnesses.contained t
      omega
    · rw [Multiset.count_eq_zero.mpr member]
      exact Nat.zero_le _
  have rest : M' - (tracked : Multiset T) + (deletions : Multiset T) =
      M - (tracked : Multiset T) + (additions : Multiset T) := by
    rw [tsub_add_eq_add_tsub kept, changed, tsub_add_eq_add_tsub witnesses.contained]
  -- the witness computed from the new multiset has the same two powers
  have expected : PowerPair (H.primeHashProduct tracked) (H.primeHashProduct deletions) acc.value
      (w.acc.value ^ H.primeHashProduct additions)
      ((unknownOrderElem : E) ^ product H (M' - (tracked : Multiset T))) := by
    have value : acc.value = unknownOrderElem ^ product H M' := rep
    have old : w.acc.value = unknownOrderElem ^ product H (M - (tracked : Multiset T)) :=
      witnesses.rest
    refine ⟨?_, ?_⟩
    · rw [← zpow_mul, product_sub kept, value]
    · rw [old, ← zpow_mul, ← zpow_mul, ← product_coe, ← product_coe, ← product_add,
        ← product_add, rest]
  exact ⟨kept, powers.unique coprime expected⟩

/-! ## Deletions -/

/-- Every entry holds the witness of its element computed from the multiset. -/
def WitnessedBy (H : Hashing) (M : Multiset T) (batch : List (T × Witness E T)) : Prop :=
  ∀ entry ∈ batch, Witnesses H M [entry.1] entry.2

/-- Such a batch is the one of honest witnesses. -/
theorem WitnessedBy.eq_honest (witnessed : WitnessedBy H M batch) :
    batch = (batch.map Prod.fst).map fun e => (e, honestWitness H M e) := by
  rw [List.map_map]
  conv_lhs => rw [← List.map_id batch]
  apply List.map_congr_left
  intro entry member
  obtain ⟨e, ⟨⟨v⟩⟩⟩ := entry
  have value : v = unknownOrderElem ^ product H (M - {e}) := (witnessed _ member).rest
  rw [Multiset.sub_singleton] at value
  rw [value]
  rfl

theorem WitnessedBy.present (witnessed : WitnessedBy H M batch) :
    ∀ e ∈ batch.map Prod.fst, e ∈ M := by
  intro e member
  obtain ⟨entry, belongs, rfl⟩ := List.mem_map.mp member
  exact Multiset.singleton_le.mp (witnessed entry belongs).contained

variable [DecidableEq E]

/-- A deletion that returned named distinct elements and leaves what is left of the multiset. -/
theorem represents_of_delete (rep : Represents H M acc) (separates : H.Separates S)
    (within : ∀ e ∈ M, e ∈ S) (witnessed : WitnessedBy H M batch) {P : ℤ}
    (run : acc.delete_ R H batch = .ok (acc', P)) :
    ((batch.map Prod.fst : List T) : Multiset T) ≤ M ∧
      Represents H (M - ((batch.map Prod.fst : List T) : Multiset T)) acc' := by
  have present := witnessed.present
  have valid : Valid H acc.value batch := by
    intro entry member
    obtain ⟨-, joint⟩ := of_delete_fold_eq_ok (R := R) (A := acc.value) run
    exact joint.root (List.mem_map_of_mem member)
  have coprime : Coprime H batch := coprime_of_delete_fold (R := R) valid run
  have nodup := nodup_of_coprime separates (fun e member => within e (present e member)) coprime
  obtain ⟨next, deleted, left⟩ := represents_delete (R := R) rep separates within nodup present
  rw [← witnessed.eq_honest, delete, run] at deleted
  cases deleted
  exact ⟨(Multiset.le_iff_subset (Multiset.coe_nodup.mpr nodup)).mpr present, left⟩

/-! ## Holdings -/

/-- What a caller may hold about an accumulator. -/
inductive Holding (E T : Type)
  | accumulator (acc : Accumulator E T)
  | witness (tracked : List T) (witness : Witness E T)
  | membership (elems : List T) (proof : MembershipProof E T)
  | nonmembership (elems : List T) (proof : NonmembershipProof E T)

section

variable [Hash E] [Hash ℤ]

/-- The holdings calls lead to, all elements from `S`. -/
inductive Obtained (R : Rug) (H : Hashing) (S : Set T) : Multiset T → Holding E T → Prop
  | empty : Obtained R H S 0 (.accumulator empty)
  | add {M : Multiset T} {acc : Accumulator E T} {xs : List T} :
    Obtained R H S M (.accumulator acc) → (∀ x ∈ xs, x ∈ S) →
    Obtained R H S (M + (xs : Multiset T)) (.accumulator (acc.add H xs))
  | addWithProof {M : Multiset T} {acc acc' : Accumulator E T} {xs : List T}
      {proof : MembershipProof E T} :
    Obtained R H S M (.accumulator acc) → (∀ x ∈ xs, x ∈ S) →
    acc.addWithProof H xs = (acc', proof) →
    Obtained R H S (M + (xs : Multiset T)) (.membership xs proof)
  | delete {M : Multiset T} {acc acc' : Accumulator E T} {batch : List (T × Witness E T)} :
    Obtained R H S M (.accumulator acc) →
    (∀ entry ∈ batch, Obtained R H S M (.witness [entry.1] entry.2)) →
    acc.delete R H batch = .ok acc' →
    Obtained R H S (M - ((batch.map Prod.fst : List T) : Multiset T)) (.accumulator acc')
  | deleteWithProof {M : Multiset T} {acc acc' : Accumulator E T}
      {batch : List (T × Witness E T)} {proof : MembershipProof E T} :
    Obtained R H S M (.accumulator acc) →
    (∀ entry ∈ batch, Obtained R H S M (.witness [entry.1] entry.2)) →
    acc.deleteWithProof R H batch = .ok (acc', proof) →
    Obtained R H S M (.membership (batch.map Prod.fst) proof)
  | proveMembership {M : Multiset T} {acc : Accumulator E T} {batch : List (T × Witness E T)}
      {proof : MembershipProof E T} :
    Obtained R H S M (.accumulator acc) →
    (∀ entry ∈ batch, Obtained R H S M (.witness [entry.1] entry.2)) →
    acc.proveMembership R H batch = .ok proof →
    Obtained R H S M (.membership (batch.map Prod.fst) proof)
  | proveNonmembership {M : Multiset T} {acc : Accumulator E T} {accSet elems : List T}
      {proof : NonmembershipProof E T} :
    Obtained R H S M (.accumulator acc) → (accSet : Multiset T) = M →
    acc.proveNonmembership R H accSet elems = .ok proof →
    Obtained R H S M (.nonmembership elems proof)
  | witnessOf {M : Multiset T} {elems : List T} {proof : MembershipProof E T} :
    Obtained R H S M (.membership elems proof) → Obtained R H S M (.witness elems proof.witness)
  | wrap {M : Multiset T} {acc : Accumulator E T} {xs : List T} :
    Obtained R H S M (.accumulator acc) → (∀ x ∈ xs, x ∈ S) →
    Obtained R H S (M + (xs : Multiset T)) (.witness xs ⟨acc⟩)
  | unwrap {M : Multiset T} {tracked : List T} {w : Witness E T} :
    Obtained R H S M (.witness tracked w) →
    Obtained R H S (M - (tracked : Multiset T)) (.accumulator w.acc)
  | subset {M : Multiset T} {witnessSet witnessSubset : List T} {w w' : Witness E T} :
    Obtained R H S M (.witness witnessSet w) →
    w.computeSubsetWitness H witnessSet witnessSubset = .ok w' →
    Obtained R H S M (.witness witnessSubset w')
  | individual {M : Multiset T} {elems : List T} {w : Witness E T}
      {ws : List (T × Witness E T)} {entry : T × Witness E T} :
    Obtained R H S M (.witness elems w) →
    Returns (fun fuel => w.computeIndividualWitnesses H fuel elems) ws → entry ∈ ws →
    Obtained R H S M (.witness [entry.1] entry.2)
  | update {M M' : Multiset T} {acc : Accumulator E T} {tracked additions deletions : List T}
      {w w' : Witness E T} :
    Obtained R H S M (.witness tracked w) → Obtained R H S M' (.accumulator acc) →
    M' + (deletions : Multiset T) = M + (additions : Multiset T) →
    acc.updateMembershipWitness R H w tracked additions deletions = .ok w' →
    Obtained R H S M' (.witness tracked w')

/-- The holding is the one computed from the multiset alone. -/
def Holding.Honest (H : Hashing) (M : Multiset T) : Holding E T → Prop
  | .accumulator acc => Represents H M acc
  | .witness tracked w => Witnesses H M tracked w
  | .membership elems proof => Witnesses H M elems proof.witness ∧
      proof.proof = Poe.prove H proof.witness.acc.value (H.primeHashProduct elems)
        (unknownOrderElem ^ product H M)
  | .nonmembership elems proof => (∀ t ∈ elems, t ∉ M) ∧
      ∃ a b : ℤ, a * H.primeHashProduct elems + b * product H M = 1 ∧
        proof = honest H ⟨unknownOrderElem ^ product H M⟩ elems a b

/-! ## Each call -/

omit [DecidableEq E] in
/-- A proof about an accumulator of the multiset whose witness is computed from it. -/
theorem honest_of_proves {proof : MembershipProof E T} (rep : Represents H M acc)
    (witnesses : Witnesses H M elems proof.witness) (proves : Proves H acc elems proof) :
    (Holding.membership elems proof).Honest H M := by
  have value : acc.value = unknownOrderElem ^ product H M := rep
  refine ⟨witnesses, ?_⟩
  rw [← value]
  exact proves.2

omit [DecidableEq E] in
theorem honest_addWithProof {proof : MembershipProof E T} (rep : Represents H M acc)
    (run : acc.addWithProof H elems = (acc', proof)) :
    (Holding.membership elems proof).Honest H (M + (elems : Multiset T)) := by
  have proves := proves_of_addWithProof run
  cases run
  exact honest_of_proves (represents_add rep elems) (Witnesses.wrap rep elems) proves

theorem honest_deleteWithProof {proof : MembershipProof E T} (rep : Represents H M acc)
    (separates : H.Separates S) (within : ∀ e ∈ M, e ∈ S) (witnessed : WitnessedBy H M batch)
    (run : acc.deleteWithProof R H batch = .ok (acc', proof)) :
    (Holding.membership (batch.map Prod.fst) proof).Honest H M := by
  have proves := proves_of_deleteWithProof run
  obtain ⟨⟨next, P⟩, deleted, returned⟩ := Outcome.bind_eq_ok run
  obtain ⟨contained, rest⟩ := represents_of_delete rep separates within witnessed deleted
  cases returned
  exact honest_of_proves rep ⟨contained, rest⟩ proves

theorem honest_proveMembership {proof : MembershipProof E T} (rep : Represents H M acc)
    (separates : H.Separates S) (within : ∀ e ∈ M, e ∈ S) (witnessed : WitnessedBy H M batch)
    (run : acc.proveMembership R H batch = .ok proof) :
    (Holding.membership (batch.map Prod.fst) proof).Honest H M := by
  have proves := proves_of_proveMembership run
  obtain ⟨next, deleted, returned⟩ := Outcome.bind_eq_ok run
  obtain ⟨⟨next', P⟩, folded, kept⟩ := Outcome.bind_eq_ok deleted
  obtain ⟨contained, rest⟩ := represents_of_delete rep separates within witnessed folded
  cases kept
  cases returned
  exact honest_of_proves rep ⟨contained, rest⟩ proves

omit [DecidableEq E] in
/-- The proof is for coprime products, and those have no element in common. -/
theorem honest_proveNonmembership {accSet : List T} {proof : NonmembershipProof E T}
    (rep : Represents H (accSet : Multiset T) acc) (separates : H.Separates S)
    (within : ∀ e ∈ accSet, e ∈ S) (run : acc.proveNonmembership R H accSet elems = .ok proof) :
    (Holding.nonmembership elems proof).Honest H (accSet : Multiset T) := by
  by_cases coprime : IsCoprime (H.primeHashProduct elems) (H.primeHashProduct accSet)
  · have bezout := R.bezout_of_gcd_eq_one (R.gcd_eq_one_iff.mpr coprime)
    have returned : acc.proveNonmembership R H accSet elems = _ :=
      proveNonmembership_eq_ok coprime
    rw [returned] at run
    cases run
    refine ⟨?_, _, _, bezout, ?_⟩
    · intro t absent present
      have member : t ∈ accSet := present
      exact (separates.prime t (within t member)).not_isUnit (coprime.isUnit_of_dvd'
        (H.hashToPrime_dvd_product absent) (H.hashToPrime_dvd_product member))
    · rcases acc with ⟨value⟩
      cases rep
      rfl
  · have refused : acc.proveNonmembership R H accSet elems = _ :=
      proveNonmembership_eq_err coprime
    rw [refused] at run
    cases run

/-! ## All calls -/

/-- Whatever the calls led to is the holding computed from the multiset. -/
theorem Obtained.honest (separates : H.Separates S) {held : Holding E T}
    (obtained : Obtained R H S M held) : (∀ e ∈ M, e ∈ S) ∧ held.Honest H M := by
  induction obtained with
  | empty => exact ⟨fun e member => (Multiset.notMem_zero e member).elim, represents_empty⟩
  | add _ new ih =>
    exact ⟨within_add ih.1 new, represents_add ih.2 _⟩
  | addWithProof _ new run ih =>
    exact ⟨within_add ih.1 new, honest_addWithProof ih.2 run⟩
  | delete _ _ run ih witnessed =>
    obtain ⟨⟨next, P⟩, deleted, kept⟩ := Outcome.bind_eq_ok run
    cases kept
    have left := represents_of_delete ih.2 separates ih.1
      (fun entry member => (witnessed entry member).2) deleted
    exact ⟨within_sub ih.1, left.2⟩
  | deleteWithProof _ _ run ih witnessed =>
    exact ⟨ih.1, honest_deleteWithProof ih.2 separates ih.1
      (fun entry member => (witnessed entry member).2) run⟩
  | proveMembership _ _ run ih witnessed =>
    exact ⟨ih.1, honest_proveMembership ih.2 separates ih.1
      (fun entry member => (witnessed entry member).2) run⟩
  | proveNonmembership _ accumulated run ih =>
    subst accumulated
    exact ⟨ih.1, honest_proveNonmembership ih.2 separates ih.1 run⟩
  | witnessOf _ ih => exact ⟨ih.1, ih.2.1⟩
  | wrap _ new ih =>
    exact ⟨within_add ih.1 new, Witnesses.wrap ih.2 _⟩
  | unwrap _ ih => exact ⟨within_sub ih.1, ih.2.rest⟩
  | subset _ taken ih => exact ⟨ih.1, ih.2.subset separates ih.1 taken⟩
  | individual _ split member ih => exact ⟨ih.1, ih.2.individual split member⟩
  | update _ _ changed updated ih current =>
    exact ⟨current.1, ih.2.update current.2 changed updated⟩

/-- Holdings for one multiset agree, whatever calls led to them: accumulators and witnesses are
the powers of the generator the multiset says, and every proof is accepted by every accumulator,
for its elements in any order. -/
theorem obtained_agree (R : Rug) (H : Hashing) (S : Set T) (separates : H.Separates S)
    (M : Multiset T) :
    (∀ acc : Accumulator E T, Obtained R H S M (.accumulator acc) →
      acc.value = exp unknownOrderElem (product H M)) ∧
    (∀ (ts : List T) (w : Witness E T), Obtained R H S M (.witness ts w) →
      (ts : Multiset T) ≤ M ∧
        w.acc.value = exp unknownOrderElem (product H (M - (ts : Multiset T)))) ∧
    ∀ acc : Accumulator E T, Obtained R H S M (.accumulator acc) →
      (∀ ts proof, Obtained R H S M (.membership ts proof : Holding E T) →
        (ts : Multiset T) ≤ M ∧
          ∀ ts', ts'.Perm ts → acc.verifyMembershipBatch H ts' proof = true) ∧
      ∀ ts proof, Obtained R H S M (.nonmembership ts proof : Holding E T) →
        (∀ t ∈ ts, t ∉ M) ∧
          ∀ ts', ts'.Perm ts → acc.verifyNonmembership H ts' proof = true := by
  refine ⟨fun acc obtained => (obtained.honest separates).2, fun ts w obtained => ?_,
    fun acc obtained => ⟨fun ts proof proved => ?_, fun ts proof proved => ?_⟩⟩
  · have witnesses : Witnesses H M ts w := (obtained.honest separates).2
    exact ⟨witnesses.contained, witnesses.rest⟩
  · have value : acc.value = unknownOrderElem ^ product H M := (obtained.honest separates).2
    obtain ⟨witnesses, computed⟩ := (proved.honest separates).2
    rw [← value] at computed
    have proves : Proves H acc ts proof := ⟨witnesses.power.trans value.symm, computed⟩
    exact ⟨witnesses.contained, fun ts' perm => proves.verify_batch perm⟩
  · have rep : Represents H M acc := (obtained.honest separates).2
    obtain ⟨absent, a, b, bezout, rfl⟩ := (proved.honest separates).2
    rcases acc with ⟨value⟩
    cases rep
    refine ⟨absent, fun ts' perm => ?_⟩
    rw [verifyNonmembership_perm perm]
    apply verify_honest_iff.mpr
    change (unknownOrderElem : E) ^ (a * H.primeHashProduct ts) *
      (unknownOrderElem ^ product H M) ^ b = unknownOrderElem
    rw [← zpow_mul, ← zpow_add, mul_comm (product H M), bezout, zpow_one]

end

open Sample in
/-- One of two elements deleted with a witness that is an older accumulator. -/
theorem obtained_agree_after_delete :
    let M : Multiset Bool := 0 + Multiset.ofList [false] + Multiset.ofList [true]
    ∃ acc : Accumulator Cyclic Bool,
      Obtained Rug.gmp Hashing.sample Set.univ (M - Multiset.ofList [true]) (.accumulator acc) ∧
        acc.value =
          exp unknownOrderElem (product Hashing.sample (M - Multiset.ofList [true])) := by
  intro M
  have older : Obtained Rug.gmp Hashing.sample Set.univ (0 + Multiset.ofList [false])
      (.accumulator (⟨⟨5⟩⟩ : Accumulator Cyclic Bool)) := .add .empty fun _ _ => trivial
  have current : Obtained Rug.gmp Hashing.sample Set.univ M
      (.accumulator (⟨⟨15⟩⟩ : Accumulator Cyclic Bool)) := .add older fun _ _ => trivial
  have witnessed : ∀ entry ∈ [(true, (⟨⟨⟨5⟩⟩⟩ : Witness Cyclic Bool))],
      Obtained Rug.gmp Hashing.sample Set.univ M (.witness [entry.1] entry.2) := by
    intro entry member
    rw [List.mem_singleton.mp member]
    exact .wrap older fun _ _ => trivial
  have root : JointRoot (⟨15⟩ : Cyclic) (primeWitnesses Hashing.sample
      [(true, (⟨⟨⟨5⟩⟩⟩ : Witness Cyclic Bool))]) ⟨5⟩ := JointRoot.single rfl
  have run : (⟨⟨15⟩⟩ : Accumulator Cyclic Bool).delete Rug.gmp Hashing.sample
      [(true, ⟨⟨⟨5⟩⟩⟩)] = .ok ⟨⟨5⟩⟩ := by
    rw [delete, delete_fold_of_jointRoot root (List.pairwise_singleton _ _)]
    rfl
  have deleted := Obtained.delete current witnessed run
  exact ⟨_, deleted, (obtained_agree Rug.gmp Hashing.sample Set.univ
    (Hashing.sample_separates.mono (Set.subset_univ _)) _).1 _ deleted⟩

section

variable [Hash E] [Hash ℤ]

/-- Where the contents allow it every call succeeds: deletions and membership proofs by distinct
elements held witnesses for, parts of witnesses, individual witnesses, nonmembership proofs for
elements that are not there and updates that touch nothing tracked. -/
theorem obtained_calls_succeed (R : Rug) (H : Hashing) (S : Set T) (separates : H.Separates S)
    (M : Multiset T) (acc : Accumulator E T) (obtained : Obtained R H S M (.accumulator acc)) :
    (∀ batch : List (T × Witness E T), (batch.map Prod.fst).Nodup →
      (∀ entry ∈ batch, Obtained R H S M (.witness [entry.1] entry.2)) →
      ∃ acc' proof proof', acc.delete R H batch = .ok acc' ∧
        acc.deleteWithProof R H batch = .ok (acc', proof) ∧
        acc.proveMembership R H batch = .ok proof') ∧
    (∀ (ts us : List T) (w : Witness E T), Obtained R H S M (.witness ts w) →
      (us.Subperm ts → ∃ w', w.computeSubsetWitness H ts us = .ok w') ∧
        (ts ≠ [] → ∃ ws, Returns (fun fuel => w.computeIndividualWitnesses H fuel ts) ws ∧
          ws.map Prod.fst = ts)) ∧
    (∀ accSet elems : List T, (accSet : Multiset T) = M → (∀ t ∈ elems, t ∈ S ∧ t ∉ M) →
      ∃ proof, acc.proveNonmembership R H accSet elems = .ok proof) ∧
    ∀ (M' : Multiset T) (ts additions deletions : List T) (w : Witness E T),
      Obtained R H S M' (.witness ts w) →
      M + (deletions : Multiset T) = M' + (additions : Multiset T) → (∀ t ∈ deletions, t ∈ S) →
      (∀ t ∈ ts, t ∉ additions ∧ t ∉ deletions) →
      ∃ w', acc.updateMembershipWitness R H w ts additions deletions = .ok w' := by
  obtain ⟨within, rep⟩ := obtained.honest separates
  refine ⟨fun batch distinct held => ?_, fun ts us w held => ⟨fun contained => ?_, fun ne => ?_⟩,
    fun accSet elems accumulated apart => ?_, fun M' ts additions deletions w held changed inside
      untouched => ?_⟩
  · have witnessed : WitnessedBy H M batch := fun entry member => (held entry member |>.honest
      separates).2
    obtain ⟨next, deleted, -⟩ :=
      represents_delete (R := R) rep separates within distinct witnessed.present
    rw [← witnessed.eq_honest] at deleted
    obtain ⟨⟨next', P⟩, folded, kept⟩ := Outcome.bind_eq_ok deleted
    cases kept
    have withProof : acc.deleteWithProof R H batch =
        .ok (next, ⟨⟨next⟩, Poe.prove H next.value P acc.value⟩) := by
      rw [deleteWithProof, folded]
      rfl
    have proved : acc.proveMembership R H batch = .ok ⟨⟨next⟩, Poe.prove H next.value
        (batch.map fun entry => H.hashToPrime entry.1).prod acc.value⟩ := by
      rw [proveMembership, deleted]
      rfl
    exact ⟨_, _, _, deleted, withProof, proved⟩
  · have quotient := Witness.primeHashProduct_diff (H := H) (List.subperm_iff_count.mp contained)
    exact ⟨_, Witness.computeSubsetWitness_of_mul_eq w contained.subset quotient⟩
  · obtain ⟨ws, returns, firsts, -⟩ := Witness.computeIndividualWitnesses_returns (H := H) w ts ne
    exact ⟨ws, returns, firsts⟩
  · subst accumulated
    have coprime : IsCoprime (H.primeHashProduct elems) (H.primeHashProduct accSet) := by
      apply H.isCoprime_primeHashProduct
      intro t absent u present
      refine separates.coprime (apart t absent).1 (within u present) ?_
      rintro rfl
      exact (apart t absent).2 present
    exact ⟨_, proveNonmembership_eq_ok coprime⟩
  · obtain ⟨within', witnesses⟩ := held.honest separates
    have since : Since H w ts additions deletions acc := witnesses.since rep changed
    have coprime : IsCoprime (H.primeHashProduct ts) (H.primeHashProduct deletions) := by
      apply H.isCoprime_primeHashProduct
      intro t tracked u deleted
      refine separates.coprime (within' t (Multiset.mem_of_le witnesses.contained tracked))
        (inside u deleted) ?_
      rintro rfl
      exact (untouched t tracked).2 deleted
    have apart : ¬ Touched ts additions deletions := by
      intro h
      rcases h with ⟨t, member, added | deleted⟩
      · exact (untouched t member).1 added
      · exact (untouched t member).2 deleted
    obtain ⟨w', updated, -⟩ := updated_of_coprime (R := R) apart coprime since
    exact ⟨w', updated⟩

end

open Sample in
/-- One of two elements, and what was accumulated before it as its witness. -/
theorem obtained_calls_succeed_of_two :
    let acc : Accumulator Cyclic Bool :=
      (empty.add Hashing.sample [false]).add Hashing.sample [true]
    let w : Witness Cyclic Bool := ⟨empty.add Hashing.sample [false]⟩
    ∃ acc' proof proof', acc.delete Rug.gmp Hashing.sample [(true, w)] = .ok acc' ∧
      acc.deleteWithProof Rug.gmp Hashing.sample [(true, w)] = .ok (acc', proof) ∧
      acc.proveMembership Rug.gmp Hashing.sample [(true, w)] = .ok proof' := by
  intro acc w
  have older : Obtained Rug.gmp Hashing.sample Set.univ (0 + Multiset.ofList [false])
      (.accumulator w.acc) := .add .empty fun _ _ => trivial
  have obtained := Obtained.add older (fun x (_ : x ∈ [true]) => Set.mem_univ x)
  apply (obtained_calls_succeed Rug.gmp Hashing.sample Set.univ
    (Hashing.sample_separates.mono (Set.subset_univ _)) _ acc obtained).1
  · exact List.nodup_singleton true
  · intro entry member
    rw [List.mem_singleton.mp member]
    exact .wrap older fun _ _ => trivial

end GroupAccumulator.Accumulator
