import GroupAccumulator.VectorCommitmentUpdate
import Mathlib.Algebra.BigOperators.Group.Finset.Basic

/-!
# Runs of updates

The abstract commitment is the set of indices whose most recently written bit is
true.  An update only ever multiplies the exponent, by the hash of every index
it writes true to, so it agrees with the set as long as it leaves alone the
indices that are set: `product_write` keeps account of the factors the exponent
has too many.  `value_of_reaches` is the invariant of the runs that never write
to a set index, `value_iff_fresh` the converse for one update.
-/

namespace GroupAccumulator.VectorCommitment

open Accumulator

/-! ## The abstract vector -/

/-- The set of true indices after a list of writes. -/
def write (set : Finset ℤ) (bits : List (Bool × ℤ)) : Finset ℤ :=
  bits.foldl (fun set entry => if entry.1 then insert entry.2 set else set.erase entry.2) set

/-- No write addresses an index that is set. -/
def Fresh (set : Finset ℤ) (bits : List (Bool × ℤ)) : Prop := ∀ i ∈ indices bits, i ∉ set

theorem filter_eq_nil_iff_fresh {set : Finset ℤ} {bits : List (Bool × ℤ)} :
    (indices bits).filter (· ∈ set) = [] ↔ Fresh set bits := by
  simp [List.filter_eq_nil_iff, Fresh]

/-- What happens to `i` does not show at the indices still to come. -/
theorem filter_indices_congr {bits : List (Bool × ℤ)} {i : ℤ} {set set' : Finset ℤ}
    (once : i ∉ indices bits) (same : ∀ j, j ≠ i → (j ∈ set' ↔ j ∈ set)) :
    (indices bits).filter (· ∈ set') = (indices bits).filter (· ∈ set) := by
  refine List.filter_congr fun j member => ?_
  have apart : j ≠ i := fun eq => once (eq ▸ member)
  simp only [same j apart]

theorem filter_indices_cons (bit : Bool) (i : ℤ) (bits : List (Bool × ℤ)) (set : Finset ℤ) :
    (indices ((bit, i) :: bits)).filter (· ∈ set) =
      (if i ∈ set then [i] else []) ++ (indices bits).filter (· ∈ set) := by
  by_cases old : i ∈ set <;> simp [indices, old]

section

variable [Hash ℤ] {H : Hashing}

/-- The exponent after the writes has, beside the product over the new set, one
factor for every write to an index that was set. -/
theorem product_write {bits : List (Bool × ℤ)} (distinct : (indices bits).Nodup)
    (set : Finset ℤ) :
    (∏ i ∈ set, H.hashToPrime i) * H.primeHashProduct (indicesOf true bits) =
      (∏ i ∈ write set bits, H.hashToPrime i) *
        H.primeHashProduct ((indices bits).filter (· ∈ set)) := by
  induction bits generalizing set with
  | nil => rfl
  | cons entry bits ih =>
    rcases entry with ⟨bit, i⟩
    rcases List.nodup_cons.mp distinct with ⟨once, rest⟩
    rw [filter_indices_cons, Hashing.primeHashProduct_append]
    cases bit with
    | true =>
      have same (j : ℤ) (apart : j ≠ i) : j ∈ insert i set ↔ j ∈ set := by simp [apart]
      have step := ih rest (insert i set)
      rw [filter_indices_congr once same] at step
      have ones : indicesOf true ((true, i) :: bits) = i :: indicesOf true bits := rfl
      have written : write set ((true, i) :: bits) = write (insert i set) bits := rfl
      rw [ones, written, Hashing.primeHashProduct_cons]
      by_cases old : i ∈ set
      · rw [Finset.insert_eq_of_mem old] at step ⊢
        rw [if_pos old, Hashing.primeHashProduct_cons, Hashing.primeHashProduct_nil]
        linear_combination H.hashToPrime i * step
      · rw [Finset.prod_insert old] at step
        rw [if_neg old, Hashing.primeHashProduct_nil]
        linear_combination step
    | false =>
      have same (j : ℤ) (apart : j ≠ i) : j ∈ set.erase i ↔ j ∈ set := by simp [apart]
      have step := ih rest (set.erase i)
      rw [filter_indices_congr once same] at step
      have ones : indicesOf true ((false, i) :: bits) = indicesOf true bits := rfl
      have written : write set ((false, i) :: bits) = write (set.erase i) bits := rfl
      rw [ones, written]
      by_cases old : i ∈ set
      · rw [← Finset.mul_prod_erase set _ old, if_pos old, Hashing.primeHashProduct_cons,
          Hashing.primeHashProduct_nil]
        linear_combination H.hashToPrime i * step
      · rw [Finset.erase_eq_of_notMem old] at step ⊢
        rw [if_neg old, Hashing.primeHashProduct_nil]
        linear_combination step

variable {E : Type} [AbelianUnknownOrderGroup E]

/-- The commitment to a set of indices. -/
def Commits (H : Hashing) (vc : VectorCommitment E) (set : Finset ℤ) : Prop :=
  vc.acc.value = exp unknownOrderElem (∏ i ∈ set, H.hashToPrime i)

variable [Hash E]

/-- The commitments and sets reached from the empty ones by updates that
returned, each given the set it leads to and each satisfying `allowed`. -/
inductive Reaches (R : Rug) (H : Hashing) (allowed : Finset ℤ → List (Bool × ℤ) → Prop) :
    VectorCommitment E → Finset ℤ → Prop
  | empty : Reaches R H allowed empty ∅
  | update {vc vc' : VectorCommitment E} {set : Finset ℤ} {accSet : List ℤ}
      {bits : List (Bool × ℤ)} {proof : VectorProof E} (reached : Reaches R H allowed vc set)
      (allows : allowed set bits) (nodup : accSet.Nodup)
      (lists : accSet.toFinset = write set bits)
      (returned : vc.update R H accSet bits = .ok (vc', proof)) :
      Reaches R H allowed vc' (write set bits)

variable {R : Rug} {vc vc' : VectorCommitment E} {set : Finset ℤ} {accSet : List ℤ}
variable {bits : List (Bool × ℤ)} {proof : VectorProof E}

/-! ## One update -/

/-- The new value, from the commitment to the old set. -/
theorem value_of_update (commits : Commits H vc set)
    (returned : vc.update R H accSet bits = .ok (vc', proof)) :
    vc'.acc.value = (unknownOrderElem : E) ^ ((∏ i ∈ write set bits, H.hashToPrime i) *
      H.primeHashProduct ((indices bits).filter (· ∈ set))) := by
  rcases of_update_eq_ok returned with ⟨distinct, after⟩
  have value : vc'.acc.value = vc.acc.value ^ H.primeHashProduct (indicesOf true bits) := by
    rw [after]
    rfl
  rw [value, commits, exp_eq_zpow, ← zpow_mul, product_write distinct]

theorem commits_of_update (commits : Commits H vc set) (fresh : Fresh set bits)
    (returned : vc.update R H accSet bits = .ok (vc', proof)) : Commits H vc' (write set bits) := by
  have value := value_of_update commits returned
  rw [filter_eq_nil_iff_fresh.mpr fresh, Hashing.primeHashProduct_nil, mul_one] at value
  exact value

/-- Where `g` has infinite order and the hashes are primes, an update that
writes to a set index does not commit to the set it should. -/
theorem value_iff_fresh (commits : Commits H vc set)
    (prime : ∀ i ∈ indices bits ++ (write set bits).toList, Prime (H.hashToPrime i))
    (infinite : ∀ n : ℤ, exp (unknownOrderElem : E) n = GroupTrait.id → n = 0)
    (returned : vc.update R H accSet bits = .ok (vc', proof)) :
    Commits H vc' (write set bits) ↔ Fresh set bits := by
  refine ⟨fun after => ?_, fun fresh => commits_of_update commits fresh returned⟩
  have value := value_of_update commits returned
  rw [after, exp_eq_zpow, ← mul_inv_eq_one, ← zpow_neg, ← zpow_add] at value
  have zero := infinite _ value
  have nonzero : ∏ i ∈ write set bits, H.hashToPrime i ≠ 0 := by
    refine Finset.prod_ne_zero_iff.mpr fun i member => Prime.ne_zero (prime i ?_)
    exact List.mem_append_right _ (Finset.mem_toList.mpr member)
  have one : H.primeHashProduct ((indices bits).filter (· ∈ set)) = 1 := by
    refine mul_left_cancel₀ nonzero ?_
    linear_combination -zero
  rw [← filter_eq_nil_iff_fresh, ← H.primeHashProduct_eq_one_iff fun i member =>
    prime i (List.mem_append_left _ (List.mem_filter.mp member).1)]
  exact one

/-! ## Runs -/

/-- While no update writes to a set index, the commitment is to the set of the
indices whose most recently written bit is true. -/
theorem value_of_reaches (R : Rug) (H : Hashing) (vc : VectorCommitment E) (set : Finset ℤ)
    (reached : Reaches R H Fresh vc set) :
    vc.acc.value = exp unknownOrderElem (∏ i ∈ set, H.hashToPrime i) := by
  induction reached with
  | empty => exact (zpow_one (unknownOrderElem : E)).symm
  | update _ fresh _ _ returned commits => exact commits_of_update commits fresh returned

end

/-! ## Two runs -/

section

open Sample

variable {allowed : Finset ℤ → List (Bool × ℤ) → Prop} {vc : VectorCommitment Cyclic}
variable {set : Finset ℤ} {bits : List (Bool × ℤ)}

/-- An update goes on a run when its false bits and the set it is given have coprime products. -/
theorem Reaches.of_coprime (accSet : List ℤ)
    (reached : Reaches Rug.gmp Hashing.sample allowed vc set) (allows : allowed set bits)
    (distinct : (indices bits).Nodup) (nodup : accSet.Nodup)
    (lists : accSet.toFinset = write set bits)
    (coprime : IsCoprime (Hashing.sample.primeHashProduct (indicesOf false bits))
      (Hashing.sample.primeHashProduct accSet)) :
    Reaches Rug.gmp Hashing.sample allowed (afterUpdate Hashing.sample vc bits).1
      (write set bits) :=
  .update reached allows nodup lists (update_eq_ok distinct coprime)

/-- A run of two updates, each of a true and a false bit. -/
theorem value_of_reaches_mixed_bits :
    let first := (afterUpdate Hashing.sample (empty : VectorCommitment Cyclic)
      [(true, 0), (false, 1)]).1
    let second := (afterUpdate Hashing.sample first [(false, 3), (true, 2)]).1
    second.acc.value =
      exp unknownOrderElem (∏ i ∈ ({2, 0} : Finset ℤ), Hashing.sample.hashToPrime i) := by
  intro first second
  have one : Reaches Rug.gmp Hashing.sample Fresh first {0} := by
    refine .of_coprime [0] .empty ?_ (by decide) (by decide) rfl ?_
    · exact fun i _ => Finset.notMem_empty i
    · exact Int.isCoprime_iff_gcd_eq_one.mpr (by decide)
  have two : Reaches Rug.gmp Hashing.sample Fresh second {2, 0} := by
    refine .of_coprime [2, 0] one ?_ (by decide) (by decide) rfl ?_
    · exact (by decide : ∀ i ∈ [(3 : ℤ), 2], i ∉ ({0} : Finset ℤ))
    · exact Int.isCoprime_iff_gcd_eq_one.mpr (by decide)
  exact value_of_reaches Rug.gmp Hashing.sample second {2, 0} two

/-- The commitment after writing true to the index `0` of `vc`. -/
def setZero (vc : VectorCommitment Cyclic) : VectorCommitment Cyclic :=
  (afterUpdate Hashing.sample vc [(true, 0)]).1

/-- Writing true to the index `0` is possible at any time. -/
theorem reaches_setZero (reached : Reaches Rug.gmp Hashing.sample allowed vc set)
    (allows : allowed set [(true, 0)]) (only : insert 0 set = {0}) :
    Reaches Rug.gmp Hashing.sample allowed (setZero vc) {0} := by
  have written : write set [(true, 0)] = {0} := only
  rw [← written]
  refine reached.of_coprime [0] allows (List.nodup_singleton 0) (List.nodup_singleton 0) ?_
    isCoprime_one_left
  rw [written]
  rfl

/-- True written twice to the same index: both updates return, and the index is
accumulated twice. -/
theorem reaches_accumulated_twice :
    ∃ vc : VectorCommitment Cyclic,
      Reaches Rug.gmp Hashing.sample (fun _ _ => True) vc {0} ∧
        vc.acc.value ≠ exp unknownOrderElem (∏ i ∈ {(0 : ℤ)}, Hashing.sample.hashToPrime i) := by
  refine ⟨setZero (setZero empty), ?_, by decide⟩
  exact reaches_setZero (reaches_setZero .empty trivial rfl) trivial rfl

end

end GroupAccumulator.VectorCommitment
