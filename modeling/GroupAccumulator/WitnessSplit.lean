import GroupAccumulator.AccumulatorDelete
import GroupAccumulator.Theory.Fueled
import GroupAccumulator.Theory.Halves

/-!
# Splitting a witness and putting it together again

`rootFactor` splits a witness `W` into one witness for each of a list of
exponents, by halves: the left half is served by `W` raised to the right half's
exponents and the other way round.  `rootFactor_induct` is the rule: the recursion
returns on every non-empty list, whatever the group, and what is returned has every
property single exponents have and the two halves pass on.  In a lawful group `W` is
a joint root of what is returned (`rootFactor_returns`).  A
deletion looks for such a joint root, and there is only one, so it gives `W`
back whatever the order of the batch.
-/

namespace GroupAccumulator

open Theory

variable {E T : Type}

/-! ## The split -/

namespace Witness

/-- The exponents with the group elements of the witnesses. -/
def offers (elems : List ℤ) (roots : List (Witness E T)) : List (ℤ × E) :=
  elems.zip (roots.map fun root => root.acc.value)

theorem exponent_offers {elems : List ℤ} {roots : List (Witness E T)}
    (lengths : roots.length = elems.length) : exponent (offers elems roots) = elems.prod := by
  unfold exponent offers
  rw [List.map_fst_zip]
  rw [List.length_map, lengths]

/-- The recursion ends on every list that is not empty, in a result with every property single
exponents have and halves keep. -/
theorem rootFactor_induct [UnknownOrderGroup E]
    {P : Witness E T → List ℤ → List (Witness E T) → Prop}
    (single : ∀ self x, P self [x] [self])
    (halves : ∀ self l r ls rs, P (self.raise r) l ls → P (self.raise l) r rs →
      P self (l ++ r) (ls ++ rs))
    (self : Witness E T) {elems : List ℤ} (ne : elems ≠ []) :
    ∃ roots, Returns (fun fuel => rootFactor fuel self elems) roots ∧ P self elems roots := by
  refine halves_induct (P := fun elems => ∀ self : Witness E T, ∃ roots,
    Returns (fun fuel => rootFactor fuel self elems) roots ∧ P self elems roots) ?_ ?_ ne self
  · intro x self
    refine ⟨[self], Returns.succ (Returns.of_eq fun fuel => ?_), single self x⟩
    rw [rootFactor]
    rfl
  · intro elems many left right self
    obtain ⟨ls, leftRuns, hl⟩ := left (self.raise (elems.drop (elems.length / 2)))
    obtain ⟨rs, rightRuns, hr⟩ := right (self.raise (elems.take (elems.length / 2)))
    have joined := halves self _ _ ls rs hl hr
    rw [List.take_append_drop] at joined
    refine ⟨ls ++ rs, Returns.succ ?_, joined⟩
    simp only [rootFactor, if_neg (show ¬ elems.length = 1 by omega)]
    exact leftRuns.bind (rightRuns.bind (Returns.of_eq fun _ => rfl))

variable [AbelianUnknownOrderGroup E]

theorem raise_value (self : Witness E T) (xs : List ℤ) :
    (self.raise xs).acc.value = self.acc.value ^ xs.prod := by
  unfold raise
  induction xs generalizing self with
  | nil => exact (zpow_one _).symm
  | cons x xs ih =>
    rw [List.foldl_cons, ih, List.prod_cons, zpow_mul]
    rfl

/-- Splits of the two halves, each from the power by the other half, make a
split of the whole. -/
theorem jointRoot_halves {self : Witness E T} {l r : List ℤ} {ls rs : List (Witness E T)}
    (lengthLeft : ls.length = l.length) (lengthRight : rs.length = r.length)
    (left : JointRoot ((self.raise r).acc.value ^ l.prod) (offers l ls) (self.raise r).acc.value)
    (right : JointRoot ((self.raise l).acc.value ^ r.prod) (offers r rs)
      (self.raise l).acc.value) :
    JointRoot (self.acc.value ^ (l ++ r).prod) (offers (l ++ r) (ls ++ rs)) self.acc.value := by
  have joined : offers (l ++ r) (ls ++ rs) = offers l ls ++ offers r rs := by
    unfold offers
    rw [List.map_append, List.zip_append]
    rw [List.length_map, lengthLeft]
  rw [raise_value, ← zpow_mul] at left right
  rw [joined, List.prod_append]
  apply JointRoot.append
  · rw [exponent_offers lengthRight, mul_comm]
    exact left
  · rw [exponent_offers lengthLeft]
    exact right

/-- There is one witness for each exponent, all of them powers of the witness split. -/
theorem rootFactor_returns (self : Witness E T) (elems : List ℤ) (ne : elems ≠ []) :
    ∃ roots, Returns (fun fuel => rootFactor fuel self elems) roots ∧
      roots.length = elems.length ∧
      JointRoot (self.acc.value ^ elems.prod) (offers elems roots) self.acc.value := by
  refine rootFactor_induct (P := fun self elems roots => roots.length = elems.length ∧
    JointRoot (self.acc.value ^ elems.prod) (offers elems roots) self.acc.value) ?_ ?_ self ne
  · intro self x
    rw [List.prod_singleton]
    exact ⟨rfl, JointRoot.single rfl⟩
  · intro self l r ls rs left right
    refine ⟨?_, jointRoot_halves left.1 right.1 left.2 right.2⟩
    rw [List.length_append, List.length_append, left.1, right.1]

variable [Hash T] {H : Hashing}

/-- Individual witnesses are returned in the order of the elements, and the
witness they come from is a joint root of them. -/
theorem computeIndividualWitnesses_returns (self : Witness E T) (elems : List T)
    (ne : elems ≠ []) :
    ∃ ws, Returns (fun fuel => self.computeIndividualWitnesses H fuel elems) ws ∧
      ws.map Prod.fst = elems ∧
      JointRoot (self.acc.value ^ H.primeHashProduct elems) (Accumulator.primeWitnesses H ws)
        self.acc.value := by
  obtain ⟨roots, returns, lengths, joint⟩ := rootFactor_returns self (elems.map H.hashToPrime)
    (fun empty => ne (List.map_eq_nil_iff.mp empty))
  rw [List.length_map] at lengths
  refine ⟨elems.zip roots, returns.bind (Returns.of_eq fun _ => rfl), ?_, ?_⟩
  · exact List.map_fst_zip lengths.ge
  · have entries : Accumulator.primeWitnesses H (elems.zip roots) =
        offers (elems.map H.hashToPrime) roots := by
      unfold offers
      rw [List.zip_map]
      rfl
    rw [entries]
    exact joint

end Witness

/-! ## The way back -/

namespace Accumulator

variable [Hash T]

/-- Distinct primes stay pairwise coprime in any order. -/
theorem coprime_of_perm {H : Hashing} {elems : List T} {batch : List (T × Witness E T)}
    (primes : ∀ t ∈ elems, 0 < H.hashToPrime t ∧ Prime (H.hashToPrime t))
    (distinct : (elems.map H.hashToPrime).Nodup) (perm : (batch.map Prod.fst).Perm elems) :
    Coprime H batch := by
  have nodup : ((batch.map Prod.fst).map H.hashToPrime).Nodup :=
    (perm.map H.hashToPrime).nodup_iff.mpr distinct
  rw [List.map_map] at nodup
  refine (List.pairwise_map.mp nodup).imp_of_mem fun hx hy differ => ?_
  have first := primes _ (perm.mem_iff.mp (List.mem_map_of_mem hx))
  have second := primes _ (perm.mem_iff.mp (List.mem_map_of_mem hy))
  exact isCoprime_of_primes first.1 first.2 second.1 second.2 differ

section

variable [AbelianUnknownOrderGroup E] [DecidableEq E] [Hash E] [Hash ℤ]

/-- Adding a list, splitting the old accumulator into individual witnesses and
deleting them in any order gives the old accumulator back. -/
theorem delete_individual_witnesses (R : Rug) (H : Hashing) (A : Accumulator E T)
    (elems : List T) (ne : elems ≠ [])
    (primes : ∀ t ∈ elems, 0 < H.hashToPrime t ∧ Prime (H.hashToPrime t))
    (distinct : (elems.map H.hashToPrime).Nodup) :
    ∃ ws, Returns (fun fuel => (⟨A⟩ : Witness E T).computeIndividualWitnesses H fuel elems) ws ∧
      ∀ batch, batch.Perm ws →
        (A.add H elems).delete R H batch = .ok A ∧
        ∃ proof, (A.add H elems).deleteWithProof R H batch = .ok (A, proof) := by
  obtain ⟨ws, returns, firsts, joint⟩ :=
    Witness.computeIndividualWitnesses_returns (H := H) (⟨A⟩ : Witness E T) elems ne
  refine ⟨ws, returns, fun batch perm => ?_⟩
  have coprime : Coprime H batch :=
    coprime_of_perm primes distinct (firsts ▸ perm.map Prod.fst)
  have deleted : delete_ R H (A.add H elems) batch = _ :=
    delete_fold_of_jointRoot (joint.perm (perm.symm.map _)) coprime
  let product := H.primeHashProduct (batch.map Prod.fst)
  refine ⟨?_, ⟨⟨A⟩, Poe.prove H A.value product (A.add H elems).value⟩, ?_⟩
  · rw [delete, deleted]
    rfl
  · rw [deleteWithProof, deleted]
    rfl

end

open Sample in
/-- Two elements added to the accumulator of the generator. -/
theorem delete_individual_witnesses_of_two :
    let A : Accumulator Cyclic Bool := ⟨⟨1⟩⟩
    ∃ ws, Returns (fun fuel => (⟨A⟩ : Witness Cyclic Bool).computeIndividualWitnesses
        Hashing.sample fuel [true, false]) ws ∧
      ∀ batch, batch.Perm ws →
        (A.add Hashing.sample [true, false]).delete Rug.gmp Hashing.sample batch = .ok A ∧
        ∃ proof, (A.add Hashing.sample [true, false]).deleteWithProof Rug.gmp Hashing.sample
          batch = .ok (A, proof) := by
  refine delete_individual_witnesses Rug.gmp Hashing.sample _ _ (by decide) ?_ (by decide)
  intro t _
  exact ⟨Hashing.sample_separates.positive t trivial, Hashing.sample_separates.prime t trivial⟩

end Accumulator

end GroupAccumulator
