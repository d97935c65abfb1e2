import GroupAccumulator.Accumulator
import GroupAccumulator.DivideAndConquer

/-!
# What a deletion does

`delete_` checks every witness against the accumulator and then folds the batch
with the Shamir trick.  With `l` the prime hashes and witnesses of the batch:

* a witness that is no root: `BadWitness`;
* all witnesses are roots and the hashes coprime in pairs: the joint root of
  `l`, and the product of the hashes (`delete_fold_eq_ok`);
* some `V` already known to take all roots: that `V`, there being no other
  (`delete_fold_of_jointRoot`), so neither who made the witnesses nor the order of the
  batch matters (`delete_sound_of_coprime`);
* all witnesses are roots and two hashes share a factor: neither `Ok` nor
  `Err`, the `unwrap` panics (`delete_fold_completes_iff`).

The fold takes the batch by halves, which changes nothing: three roots combine in either
grouping or in none, so the result is that of the batch taken entry by entry
(`delete_eq_ok_iff_foldlM`).
-/

namespace GroupAccumulator

open Theory

variable {E T : Type} [Hash T] {R : Rug} {H : Hashing} {batch : List (T × Witness E T)}

namespace Accumulator

/-! ## The batch -/

/-- The prime hashes of the batch are coprime in pairs. -/
def Coprime (H : Hashing) (batch : List (T × Witness E T)) : Prop :=
  batch.Pairwise fun x y => IsCoprime (H.hashToPrime x.1) (H.hashToPrime y.1)

theorem pairwiseCoprime_primeWitnesses :
    PairwiseCoprime (primeWitnesses H batch) ↔ Coprime H batch :=
  List.pairwise_map

/-- Distinct elements told apart have coprime hashes. -/
theorem coprime_of_separates {S : Set T} (separates : H.Separates S)
    (distinct : (batch.map Prod.fst).Nodup) (within : ∀ t ∈ batch.map Prod.fst, t ∈ S) :
    Coprime H batch := by
  refine (List.pairwise_map.mp distinct).imp_of_mem fun hx hy differ => ?_
  exact separates.coprime (within _ (List.mem_map_of_mem hx)) (within _ (List.mem_map_of_mem hy))
    differ

/-- Pairwise coprime hashes of primes belong to distinct elements. -/
theorem nodup_of_coprime {S : Set T} (separates : H.Separates S)
    (within : ∀ e ∈ batch.map Prod.fst, e ∈ S)
    (coprime : Coprime H batch) : (batch.map Prod.fst).Nodup := by
  refine List.pairwise_map.mpr (coprime.imp_of_mem ?_)
  intro x y hx _ apart same
  rw [← same] at apart
  exact (separates.prime x.1 (within x.1 (List.mem_map_of_mem hx))).not_isUnit
    (isCoprime_self.mp apart)

theorem exponent_primeWitnesses :
    exponent (primeWitnesses H batch) = H.primeHashProduct (batch.map Prod.fst) := by
  unfold exponent primeWitnesses Hashing.primeHashProduct
  rw [List.map_map, List.map_map]
  rfl

variable [AbelianUnknownOrderGroup E] {A : E}

/-- Every entry of the batch holds a root of the accumulator. -/
def Valid (H : Hashing) (A : E) (batch : List (T × Witness E T)) : Prop :=
  ∀ entry ∈ batch, exp entry.2.acc.value (H.hashToPrime entry.1) = A

theorem not_valid_iff :
    ¬ Valid H A batch ↔ ∃ entry ∈ batch, exp entry.2.acc.value (H.hashToPrime entry.1) ≠ A := by
  unfold Valid
  push Not
  rfl

theorem Valid.root (valid : Valid H A batch) :
    ∀ x ∈ primeWitnesses H batch, x.2 ^ x.1 = A := by
  intro x member
  rcases List.mem_map.mp member with ⟨entry, belongs, rfl⟩
  exact valid entry belongs

/-- The powers of an element by all hashes but one, of every entry. -/
theorem jointRoot_iff {V : E} :
    JointRoot A (primeWitnesses H batch) V ↔
      V ^ H.primeHashProduct (batch.map Prod.fst) = A ∧
        ∀ entry ∈ batch,
          V ^ (H.primeHashProduct (batch.map Prod.fst) / H.hashToPrime entry.1) =
            entry.2.acc.value := by
  rw [← exponent_primeWitnesses]
  constructor
  · intro joint
    refine ⟨joint.power, fun entry member => ?_⟩
    exact joint.zpow_ediv (H.hashToPrime_ne_zero entry.1) (List.mem_map_of_mem member)
  · intro powers
    refine JointRoot.of_zpow_ediv powers.1 ?_ ?_
    · intro x member
      obtain ⟨entry, -, rfl⟩ := List.mem_map.mp member
      exact H.hashToPrime_ne_zero entry.1
    · intro x member
      obtain ⟨entry, belongs, rfl⟩ := List.mem_map.mp member
      exact powers.2 entry belongs

/-- In a batch that is not empty, one root of an entry is a root of the accumulator. -/
theorem power_of_cofactors {V : E} (valid : Valid H A batch) (ne : batch ≠ [])
    (rest : ∀ entry ∈ batch,
      V ^ (H.primeHashProduct (batch.map Prod.fst) / H.hashToPrime entry.1) =
        entry.2.acc.value) :
    V ^ H.primeHashProduct (batch.map Prod.fst) = A := by
  obtain ⟨entry, member⟩ := List.exists_mem_of_ne_nil batch ne
  have divides : H.hashToPrime entry.1 ∣ H.primeHashProduct (batch.map Prod.fst) :=
    H.hashToPrime_dvd_product (List.mem_map_of_mem member)
  calc V ^ H.primeHashProduct (batch.map Prod.fst)
      = (V ^ (H.primeHashProduct (batch.map Prod.fst) / H.hashToPrime entry.1)) ^
          H.hashToPrime entry.1 := by rw [← zpow_mul, Int.ediv_mul_cancel divides]
    _ = entry.2.acc.value ^ H.hashToPrime entry.1 := by rw [rest entry member]
    _ = A := valid entry member

variable [DecidableEq E]

/-! ## One combination -/

/-- A partial result of the fold over `l`. -/
structure Combined (A : E) (l : List (ℤ × E)) (c : ℤ × E) : Prop where
  product : c.1 = exponent l
  root : JointRoot A l c.2

/-- Partial results with coprime products combine. -/
theorem combineRoots_eq_ok {ε : Type} {l r : List (ℤ × E)} {a b : ℤ × E}
    (left : Combined A l a) (right : Combined A r b)
    (coprime : IsCoprime (exponent l) (exponent r)) :
    ∃ c, combineRoots R a b = (.ok c : Outcome ε (ℤ × E)) ∧ Combined A (l ++ r) c := by
  rcases a with ⟨p1, v1⟩
  rcases b with ⟨p2, v2⟩
  rcases left with ⟨rfl, rootLeft⟩
  rcases right with ⟨rfl, rootRight⟩
  obtain ⟨a, b, bez, run⟩ :=
    shamirTrick_of_coprime R (rootLeft.power.trans rootRight.power.symm) coprime
  refine ⟨(exponent l * exponent r, v1 ^ b * v2 ^ a), ?_, ?_⟩
  · simp only [combineRoots, run]
    rfl
  · exact ⟨(exponent_append l r).symm, rootLeft.merge rootRight bez⟩

/-- A combination returns the product of coprime exponents and the root both powers of
which are the two it was given. -/
theorem combineRoots_eq_ok_iff {ε : Type} {a b c : ℤ × E} :
    combineRoots R a b = (.ok c : Outcome ε (ℤ × E)) ↔
      IsCoprime a.1 b.1 ∧ c.1 = a.1 * b.1 ∧ c.2 ^ b.1 = a.2 ∧ c.2 ^ a.1 = b.2 := by
  rcases a with ⟨p1, v1⟩
  rcases b with ⟨p2, v2⟩
  rcases c with ⟨p, v⟩
  constructor
  · intro run
    obtain ⟨w, unwrapped, returned⟩ := Outcome.bind_eq_ok run
    cases trick : shamirTrick R v1 v2 p1 p2 with
    | none =>
      rw [trick] at unwrapped
      cases unwrapped
    | some r =>
      rw [trick] at unwrapped
      cases unwrapped
      cases returned
      obtain ⟨coprime, left, right⟩ := (shamirTrick_eq_some_iff R).mp trick
      exact ⟨coprime, rfl, left, right⟩
  · rintro ⟨coprime, rfl, left, right⟩
    have trick := (shamirTrick_eq_some_iff R).mpr ⟨coprime, left, right⟩
    simp only [combineRoots, trick]
    rfl

/-- A combination that returned had coprime exponents and multiplied them. -/
theorem of_combineRoots_eq_ok {ε : Type} {a b c : ℤ × E}
    (run : combineRoots R a b = (.ok c : Outcome ε (ℤ × E))) :
    IsCoprime a.1 b.1 ∧ c.1 = a.1 * b.1 := by
  obtain ⟨coprime, product, -⟩ := combineRoots_eq_ok_iff.mp run
  exact ⟨coprime, product⟩

/-- Three roots are combined either way or not at all. -/
theorem combineRoots_regroups {ε : Type} :
    Regroups (combineRoots R : ℤ × E → ℤ × E → Outcome ε (ℤ × E)) := by
  rintro ⟨x, u⟩ ⟨y, v⟩ ⟨z, w⟩ ⟨p, r⟩
  simp only [Outcome.bind_eq_ok_iff, combineRoots_eq_ok_iff, Prod.exists]
  constructor
  · rintro ⟨_, s, ⟨coprime, rfl, left, right⟩, apart, rfl, outer, last⟩
    rw [IsCoprime.mul_left_iff] at apart
    refine ⟨y * z, r ^ x, ⟨apart.2, rfl, ?_, ?_⟩, coprime.mul_right apart.1, mul_assoc x y z,
      ?_, rfl⟩
    · rw [← right, ← outer, ← zpow_mul, ← zpow_mul, mul_comm]
    · rw [← last, ← zpow_mul]
    · rw [← left, ← outer, ← zpow_mul, mul_comm]
  · rintro ⟨_, s, ⟨coprime, rfl, left, right⟩, apart, rfl, outer, last⟩
    rw [IsCoprime.mul_right_iff] at apart
    refine ⟨x * y, r ^ z, ⟨apart.1, rfl, ?_, ?_⟩, apart.2.mul_left coprime, (mul_assoc x y z).symm,
      rfl, ?_⟩
    · rw [← outer, ← zpow_mul, mul_comm]
    · rw [← left, ← last, ← zpow_mul, ← zpow_mul, mul_comm]
    · rw [← right, ← last, ← zpow_mul]

/-- A combination returns or panics at its `unwrap`. -/
theorem combineRoots_ok_or_panics {ε : Type} (a b : ℤ × E) :
    (∃ c, combineRoots R a b = (.ok c : Outcome ε (ℤ × E))) ∨
      combineRoots R a b = (.fault .unwrapNone : Outcome ε (ℤ × E)) := by
  rcases a with ⟨p1, v1⟩
  rcases b with ⟨p2, v2⟩
  simp only [combineRoots]
  cases shamirTrick R v1 v2 p1 p2 with
  | none => exact Or.inr rfl
  | some w => exact Or.inl ⟨(p1 * p2, w), rfl⟩

/-! ## The witness check -/

/-- A valid batch is folded. -/
theorem delete_fold_of_valid (valid : Valid H A batch) :
    delete_ R H (⟨A⟩ : Accumulator E T) batch =
      divideAndConquer (combineRoots R) (1, A) (primeWitnesses H batch) >>=
        fun (primeProduct, accElem) => .ok (⟨accElem⟩, primeProduct) := by
  refine if_neg ?_
  rw [List.any_eq_true]
  intro ⟨x, member, bad⟩
  exact of_decide_eq_true bad (valid.root x member)

/-- Any other batch is refused. -/
theorem delete_fold_of_not_valid (bad : ¬ Valid H A batch) :
    delete_ R H (⟨A⟩ : Accumulator E T) batch = .err .badWitness := by
  rcases not_valid_iff.mp bad with ⟨entry, belongs, ne⟩
  refine if_pos (List.any_eq_true.mpr ⟨_, List.mem_map_of_mem belongs, ?_⟩)
  exact decide_eq_true ne

/-! ## The fold -/

/-- Roots with pairwise coprime exponents are joined. -/
theorem delete_fold_eq_ok (valid : Valid H A batch) (coprime : Coprime H batch) :
    ∃ W, delete_ R H (⟨A⟩ : Accumulator E T) batch =
        .ok (⟨W⟩, H.primeHashProduct (batch.map Prod.fst)) ∧
      JointRoot A (primeWitnesses H batch) W := by
  have pairwise := pairwiseCoprime_primeWitnesses.mpr coprime
  obtain ⟨⟨P, W⟩, run, product, root⟩ :
      ∃ c, divideAndConquer (combineRoots R) (1, A) (primeWitnesses H batch) =
          (.ok c : Outcome AccError (ℤ × E)) ∧
        Combined A (primeWitnesses H batch) c := by
    apply divideAndConquer_eq_ok
    · exact ⟨rfl, JointRoot.nil A⟩
    · intro x member
      exact ⟨by simp, JointRoot.single (valid.root x member)⟩
    · intro l r a b segment left right
      have within : PairwiseCoprime (l ++ r) := List.Pairwise.sublist segment.sublist pairwise
      exact combineRoots_eq_ok left right within.exponents
  refine ⟨W, ?_, root⟩
  rw [delete_fold_of_valid valid, run, ← exponent_primeWitnesses, ← product]
  rfl

/-- An element that takes every offered root is what the deletion finds. -/
theorem delete_fold_of_jointRoot {V : E} (joint : JointRoot A (primeWitnesses H batch) V)
    (coprime : Coprime H batch) :
    delete_ R H (⟨A⟩ : Accumulator E T) batch =
      .ok (⟨V⟩, H.primeHashProduct (batch.map Prod.fst)) := by
  have valid : Valid H A batch := fun entry member => joint.root (List.mem_map_of_mem member)
  rcases delete_fold_eq_ok (R := R) valid coprime with ⟨W, returned, root⟩
  rw [returned, root.unique joint (pairwiseCoprime_primeWitnesses.mpr coprime)]

/-- A fold that returned met coprime exponents only. -/
theorem coprime_of_delete_fold {r : Accumulator E T × ℤ} (valid : Valid H A batch)
    (run : delete_ R H ⟨A⟩ batch = .ok r) : Coprime H batch := by
  rw [delete_fold_of_valid valid] at run
  rcases Outcome.bind_eq_ok run with ⟨c, folded, -⟩
  rw [← pairwiseCoprime_primeWitnesses]
  have both : c.1 = exponent (primeWitnesses H batch) ∧
      PairwiseCoprime (primeWitnesses H batch) := by
    refine of_divideAndConquer_eq_ok (Q := fun l c => c.1 = exponent l ∧ PairwiseCoprime l)
      ?_ ?_ ?_ folded
    · exact ⟨rfl, List.Pairwise.nil⟩
    · intro x _
      exact ⟨by simp, List.pairwise_singleton _ x⟩
    · intro l r a b c left right combined
      rcases of_combineRoots_eq_ok combined with ⟨coprime, product⟩
      rw [left.1, right.1] at coprime product
      exact ⟨product.trans (exponent_append l r).symm, left.2.append right.2 coprime⟩
  exact both.2

/-- What a deletion returned is the joint root of the batch and the product of
its hashes. -/
theorem of_delete_fold_eq_ok {acc : Accumulator E T} {P : ℤ}
    (run : delete_ R H (⟨A⟩ : Accumulator E T) batch = .ok (acc, P)) :
    P = H.primeHashProduct (batch.map Prod.fst) ∧
      JointRoot A (primeWitnesses H batch) acc.value := by
  by_cases valid : Valid H A batch
  · rcases delete_fold_eq_ok (R := R) valid (coprime_of_delete_fold valid run) with
      ⟨W, returned, root⟩
    rw [returned] at run
    cases run
    exact ⟨rfl, root⟩
  · rw [delete_fold_of_not_valid valid] at run
    cases run

/-- The halving does not change what a deletion returns: it is what the Shamir trick gives
taken through the batch entry by entry. -/
theorem delete_eq_ok_iff_foldlM {acc acc' : Accumulator E T} {P : ℤ} :
    acc.delete_ R H batch = .ok (acc', P) ↔ Valid H acc.value batch ∧
      (primeWitnesses H batch).foldlM (combineRoots R) (1, acc.value) =
        (.ok (P, acc'.value) : Outcome AccError (ℤ × E)) := by
  by_cases valid : Valid H acc.value batch
  · have folded : acc.delete_ R H batch = _ := delete_fold_of_valid valid
    rw [folded, Outcome.bind_eq_ok_iff, ← divideAndConquer_eq_ok_iff_foldlM combineRoots_regroups]
    constructor
    · rintro ⟨c, run, returned⟩
      cases returned
      exact ⟨valid, run⟩
    · rintro ⟨-, run⟩
      exact ⟨_, run, rfl⟩
  · have refused : acc.delete_ R H batch = _ := delete_fold_of_not_valid valid
    rw [refused]
    constructor
    · intro returned
      cases returned
    · rintro ⟨good, -⟩
      exact (valid good).elim

/-- It is a root of the accumulator the batch was deleted from. -/
theorem pow_of_delete {acc acc' : Accumulator E T} {P : ℤ}
    (run : acc.delete_ R H batch = .ok (acc', P)) :
    P = H.primeHashProduct (batch.map Prod.fst) ∧
      acc'.value ^ H.primeHashProduct (batch.map Prod.fst) = acc.value := by
  rcases of_delete_fold_eq_ok run with ⟨product, root⟩
  refine ⟨product, ?_⟩
  rw [← exponent_primeWitnesses]
  exact root.power

/-- Whoever supplied the witnesses: a batch with pairwise coprime hashes is refused for a
witness that is no root, and otherwise gives the only element compatible with all of them. -/
theorem delete_sound_of_coprime (R : Rug) (H : Hashing) (acc : Accumulator E T)
    (batch : List (T × Witness E T))
    (coprime : batch.Pairwise fun x y => IsCoprime (H.hashToPrime x.1) (H.hashToPrime y.1)) :
    let P := H.primeHashProduct (batch.map Prod.fst)
    (acc.delete_ R H batch = .err .badWitness ↔
        ∃ entry ∈ batch, exp entry.2.acc.value (H.hashToPrime entry.1) ≠ acc.value) ∧
      ((¬ ∃ entry ∈ batch, exp entry.2.acc.value (H.hashToPrime entry.1) ≠ acc.value) →
        ∃ acc' : Accumulator E T, acc.delete_ R H batch = .ok (acc', P) ∧
          exp acc'.value P = acc.value ∧
          (∀ entry ∈ batch, exp acc'.value (P / H.hashToPrime entry.1) = entry.2.acc.value) ∧
          (batch ≠ [] → ∀ v : E,
            (∀ entry ∈ batch, exp v (P / H.hashToPrime entry.1) = entry.2.acc.value) →
              v = acc'.value) ∧
          (batch = [] → acc' = acc) ∧
          ∀ batch', batch'.Perm batch → acc.delete_ R H batch' = .ok (acc', P)) := by
  intro P
  rw [← not_valid_iff, not_not]
  refine ⟨⟨?_, delete_fold_of_not_valid⟩, fun valid => ?_⟩
  · intro refused valid
    obtain ⟨W, returned, -⟩ := delete_fold_eq_ok (R := R) valid coprime
    have both := returned.symm.trans refused
    cases both
  · obtain ⟨W, returned, joint⟩ := delete_fold_eq_ok (R := R) valid coprime
    obtain ⟨power, rest⟩ := jointRoot_iff.mp joint
    refine ⟨⟨W⟩, returned, power, rest, fun ne v compatible => ?_, ?_, fun batch' perm => ?_⟩
    · have other : JointRoot acc.value (primeWitnesses H batch) v :=
        jointRoot_iff.mpr ⟨power_of_cofactors valid ne compatible, compatible⟩
      exact other.unique joint (pairwiseCoprime_primeWitnesses.mpr coprime)
    · intro empty
      subst empty
      have value : W = acc.value := joint.unique (JointRoot.nil acc.value) List.Pairwise.nil
      rw [value]
    · have symmetric : Coprime H batch' :=
        (perm.pairwise_iff fun {_ _} coprime => coprime.symm).mpr coprime
      have same : H.primeHashProduct (batch'.map Prod.fst) = P :=
        H.primeHashProduct_perm (perm.map Prod.fst)
      have again : acc.delete_ R H batch' = _ :=
        delete_fold_of_jointRoot (joint.perm (perm.symm.map _)) symmetric
      rw [again, same]

open Sample in
/-- The third and the fifth root of one element. -/
theorem delete_sound_of_two :
    let acc : Accumulator Cyclic Bool := ⟨⟨15⟩⟩
    let batch : List (Bool × Witness Cyclic Bool) := [(true, ⟨⟨⟨5⟩⟩⟩), (false, ⟨⟨⟨3⟩⟩⟩)]
    ∃ acc', acc.delete_ Rug.gmp Hashing.sample batch = .ok (acc', 15) ∧
      exp acc'.value 15 = acc.value := by
  intro acc batch
  have coprime : batch.Pairwise fun x y =>
      IsCoprime (Hashing.sample.hashToPrime x.1) (Hashing.sample.hashToPrime y.1) := by
    rw [List.pairwise_pair, Int.isCoprime_iff_gcd_eq_one]
    decide
  obtain ⟨-, returns⟩ := delete_sound_of_coprime Rug.gmp Hashing.sample acc batch coprime
  obtain ⟨acc', returned, power, -⟩ := returns (by decide)
  exact ⟨acc', returned, power⟩

/-- Past the witness check a deletion returns or panics at an `unwrap`. -/
theorem delete_fold_ok_or_panics (valid : Valid H A batch) :
    (∃ r, delete_ R H (⟨A⟩ : Accumulator E T) batch = .ok r) ∨
      delete_ R H (⟨A⟩ : Accumulator E T) batch = .fault .unwrapNone := by
  rw [delete_fold_of_valid valid]
  have fold : (∃ c, divideAndConquer (combineRoots R) (1, A) (primeWitnesses H batch) =
        (.ok c : Outcome AccError (ℤ × E))) ∨
      divideAndConquer (combineRoots R) (1, A) (primeWitnesses H batch) =
        (.fault .unwrapNone : Outcome AccError (ℤ × E)) := by
    refine divideAndConquer_induct
      (P := fun _ o => (∃ c, o = .ok c) ∨ o = .fault .unwrapNone) ?_ ?_ ?_
    · exact Or.inl ⟨_, rfl⟩
    · intro x _
      exact Or.inl ⟨x, rfl⟩
    · intro l r p q _ left right
      rcases left with ⟨a, rfl⟩ | rfl
      · rcases right with ⟨b, rfl⟩ | rfl
        · exact combineRoots_ok_or_panics a b
        · exact Or.inr rfl
      · exact Or.inr rfl
  rcases fold with ⟨c, returned⟩ | panicked
  · rw [returned]
    exact Or.inl ⟨_, rfl⟩
  · rw [panicked]
    exact Or.inr rfl

/-- A valid batch with a common factor of two hashes panics. -/
theorem delete_fold_panics (valid : Valid H A batch) (shared : ¬ Coprime H batch) :
    delete_ R H (⟨A⟩ : Accumulator E T) batch = .fault .unwrapNone := by
  rcases delete_fold_ok_or_panics (R := R) valid with ⟨r, returned⟩ | panicked
  · exact (shared (coprime_of_delete_fold valid returned)).elim
  · exact panicked

/-- A deletion returns unless a valid batch has two hashes with a common factor. -/
theorem delete_fold_completes_iff :
    (delete_ R H (⟨A⟩ : Accumulator E T) batch).Completes ↔
      ¬ Valid H A batch ∨ Coprime H batch := by
  by_cases valid : Valid H A batch
  · by_cases coprime : Coprime H batch
    · rcases delete_fold_eq_ok (R := R) valid coprime with ⟨W, returned, -⟩
      rw [returned]
      exact ⟨fun _ => Or.inr coprime, fun _ => Outcome.completes_ok _⟩
    · rw [delete_fold_panics valid coprime]
      constructor
      · intro completes
        exact (completes _ rfl).elim
      · intro harmless
        cases harmless with
        | inl bad => exact (bad valid).elim
        | inr pairwise => exact (coprime pairwise).elim
  · rw [delete_fold_of_not_valid valid]
    exact ⟨fun _ => Or.inl valid, fun _ => Outcome.completes_err _⟩

/-! ## The public deletions -/

theorem delete_completes {self : Accumulator E T} :
    (self.delete R H batch).Completes ↔ (self.delete_ R H batch).Completes :=
  Outcome.completes_bind fun _ => Outcome.completes_ok _

section

variable [Hash E] [Hash ℤ]

theorem deleteWithProof_completes {self : Accumulator E T} :
    (self.deleteWithProof R H batch).Completes ↔ (self.delete_ R H batch).Completes :=
  Outcome.completes_bind fun _ => Outcome.completes_ok _

theorem proveMembership_completes {self : Accumulator E T} :
    (self.proveMembership R H batch).Completes ↔ (self.delete_ R H batch).Completes :=
  (Outcome.completes_bind fun _ => Outcome.completes_ok _).trans delete_completes

/-- A batch makes none of the three panic exactly when it holds a bad witness
or its prime hashes are coprime in pairs. -/
theorem deletions_complete_iff (R : Rug) (H : Hashing) (self : Accumulator E T)
    (elemWitnesses : List (T × Witness E T)) :
    let harmless := (∃ entry ∈ elemWitnesses,
        exp entry.2.acc.value (H.hashToPrime entry.1) ≠ self.value) ∨
      elemWitnesses.Pairwise fun x y => IsCoprime (H.hashToPrime x.1) (H.hashToPrime y.1)
    ((self.delete R H elemWitnesses).Completes ↔ harmless) ∧
      ((self.deleteWithProof R H elemWitnesses).Completes ↔ harmless) ∧
      ((self.proveMembership R H elemWitnesses).Completes ↔ harmless) := by
  intro harmless
  have core : (self.delete_ R H elemWitnesses).Completes ↔ harmless := by
    rw [delete_fold_completes_iff, not_valid_iff]
    rfl
  exact ⟨delete_completes.trans core, deleteWithProof_completes.trans core,
    proveMembership_completes.trans core⟩

end

open Sample in
/-- The same element twice, each time with a valid witness. -/
theorem deletions_panic_on_repeated_element :
    let self : Accumulator Cyclic Bool := ⟨⟨3⟩⟩
    let entry : Bool × Witness Cyclic Bool := (true, ⟨⟨⟨1⟩⟩⟩)
    self.delete Rug.gmp Hashing.sample [entry, entry] = .fault .unwrapNone ∧
      self.deleteWithProof Rug.gmp Hashing.sample [entry, entry] = .fault .unwrapNone ∧
      self.proveMembership Rug.gmp Hashing.sample [entry, entry] = .fault .unwrapNone := by
  intro self entry
  have core : self.delete_ Rug.gmp Hashing.sample [entry, entry] = .fault .unwrapNone := by
    apply delete_fold_panics
    · unfold Valid
      decide
    · rw [Coprime, List.pairwise_pair, Int.isCoprime_iff_gcd_eq_one]
      decide
  refine ⟨?_, ?_, ?_⟩
  · rw [delete, core]
    rfl
  · rw [deleteWithProof, core]
    rfl
  · rw [proveMembership, delete, core]
    rfl

end Accumulator

end GroupAccumulator
