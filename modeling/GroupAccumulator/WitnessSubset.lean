import GroupAccumulator.WitnessSplit

/-!
# Witnesses for a part of the elements

`computeSubsetWitness` looks every element of the subset up in the set, but counts
them only through the remainder of two products of hashes.  With one prime for each
element the remainder vanishes exactly where the subset is contained in the set,
repetitions counted, so its two errors tell a foreign element from one repeated too
often.  For a single element it is the slow way to what `computeIndividualWitnesses`
returns for all of them at once, also where elements or hashes repeat.
-/

namespace GroupAccumulator

open Theory

variable {E T : Type} [Hash T] {H : Hashing}

namespace Witness

/-! ## One call -/

section

variable [UnknownOrderGroup E] [DecidableEq T] {witnessSet witnessSubset : List T}

/-- An element that is not in the set. -/
theorem computeSubsetWitness_of_foreign (self : Witness E T)
    (foreign : ∃ t ∈ witnessSubset, t ∉ witnessSet) :
    self.computeSubsetWitness H witnessSet witnessSubset = .err .badWitness := by
  obtain ⟨t, member, absent⟩ := foreign
  refine if_pos (List.any_eq_true.mpr ⟨t, member, ?_⟩)
  rw [Bool.not_eq_true', List.contains_eq_mem]
  exact decide_eq_false absent

/-- Elements of the set only: the division decides. -/
theorem computeSubsetWitness_of_members (self : Witness E T)
    (members : ∀ t ∈ witnessSubset, t ∈ witnessSet) :
    self.computeSubsetWitness H witnessSet witnessSubset =
      if (H.primeHashProduct witnessSet).tmod (H.primeHashProduct witnessSubset) ≠ 0 then
        .err .inexactDivision
      else .ok ⟨⟨exp self.acc.value
        ((H.primeHashProduct witnessSet).tdiv (H.primeHashProduct witnessSubset))⟩⟩ := by
  have divisor := H.primeHashProduct_ne_zero witnessSubset
  have contained : ¬ (witnessSubset.any fun witness => !witnessSet.contains witness) = true := by
    intro foreign
    obtain ⟨t, member, absent⟩ := List.any_eq_true.mp foreign
    rw [Bool.not_eq_true', List.contains_eq_mem, decide_eq_false_iff_not] at absent
    exact absent (members t member)
  unfold computeSubsetWitness
  rw [if_neg contained]
  simp only [divTrunc_of_ne_zero divisor, remTrunc_of_ne_zero divisor]
  rfl

/-- An exact division. -/
theorem computeSubsetWitness_of_mul_eq (self : Witness E T)
    (members : ∀ t ∈ witnessSubset, t ∈ witnessSet) {q : ℤ}
    (factor : H.primeHashProduct witnessSubset * q = H.primeHashProduct witnessSet) :
    self.computeSubsetWitness H witnessSet witnessSubset = .ok ⟨⟨exp self.acc.value q⟩⟩ := by
  have divisor := H.primeHashProduct_ne_zero witnessSubset
  rw [computeSubsetWitness_of_members self members, ← factor, Int.mul_tmod_right,
    Int.mul_tdiv_cancel_left q divisor, if_neg (not_not.mpr rfl)]

/-- A division that leaves a remainder. -/
theorem computeSubsetWitness_of_not_dvd (self : Witness E T)
    (members : ∀ t ∈ witnessSubset, t ∈ witnessSet)
    (inexact : ¬ H.primeHashProduct witnessSubset ∣ H.primeHashProduct witnessSet) :
    self.computeSubsetWitness H witnessSet witnessSubset = .err .inexactDivision := by
  rw [computeSubsetWitness_of_members self members]
  exact if_pos (mt Int.dvd_of_tmod_eq_zero inexact)

end

/-! ## The two errors -/

/-- What the elements not asked for are raised to, next to what is asked for. -/
theorem primeHashProduct_diff [DecidableEq T] {witnessSet witnessSubset : List T}
    (contained : ∀ t, witnessSubset.count t ≤ witnessSet.count t) :
    H.primeHashProduct witnessSubset * H.primeHashProduct (witnessSet.diff witnessSubset) =
      H.primeHashProduct witnessSet := by
  rw [← H.primeHashProduct_append]
  exact H.primeHashProduct_perm
    (List.subperm_append_diff_self_of_count_le fun t _ => contained t)

/-- A foreign element is a bad witness, an element repeated too often an inexact division, and
everything else is served with the power by the rest of the set. -/
theorem computeSubsetWitness_exact [AbelianUnknownOrderGroup E] [DecidableEq T] (H : Hashing)
    (self : Witness E T) (witnessSet witnessSubset : List T)
    (separates : H.Separates {t | t ∈ witnessSet ++ witnessSubset}) :
    let result := self.computeSubsetWitness H witnessSet witnessSubset
    (result = .err .badWitness ↔ ∃ t ∈ witnessSubset, t ∉ witnessSet) ∧
      (result = .err .inexactDivision ↔ (∀ t ∈ witnessSubset, t ∈ witnessSet) ∧
        ∃ t, witnessSet.count t < witnessSubset.count t) ∧
      (result ≠ .err .badWitness → result ≠ .err .inexactDivision → ∃ W' : Witness E T,
        result = .ok W' ∧
          W'.acc.value =
            exp self.acc.value (H.primeHashProduct (witnessSet.diff witnessSubset)) ∧
          exp W'.acc.value (H.primeHashProduct witnessSubset) =
            exp self.acc.value (H.primeHashProduct witnessSet)) := by
  intro result
  by_cases foreign : ∃ t ∈ witnessSubset, t ∉ witnessSet
  · have refused : result = .err .badWitness := computeSubsetWitness_of_foreign self foreign
    rw [refused]
    refine ⟨⟨fun _ => foreign, fun _ => rfl⟩, ⟨fun other => ?_, fun repeated => ?_⟩,
      fun ne => (ne rfl).elim⟩
    · cases other
    · obtain ⟨t, member, absent⟩ := foreign
      exact (absent (repeated.1 t member)).elim
  · have members : ∀ t ∈ witnessSubset, t ∈ witnessSet := by
      push Not at foreign
      exact foreign
    by_cases contained : ∀ t, witnessSubset.count t ≤ witnessSet.count t
    · have factor := primeHashProduct_diff (H := H) contained
      have served : result = _ := computeSubsetWitness_of_mul_eq self members factor
      rw [served]
      refine ⟨⟨fun other => ?_, fun outside => (foreign outside).elim⟩,
        ⟨fun other => ?_, fun repeated => ?_⟩, fun _ _ => ⟨_, rfl, rfl, ?_⟩⟩
      · cases other
      · cases other
      · obtain ⟨t, more⟩ := repeated.2
        exact absurd (contained t) (not_le.mpr more)
      · have power : (self.acc.value ^ H.primeHashProduct (witnessSet.diff witnessSubset)) ^
            H.primeHashProduct witnessSubset = self.acc.value ^ H.primeHashProduct witnessSet := by
          rw [← zpow_mul, mul_comm, factor]
        exact power
    · have inexact : ¬ H.primeHashProduct witnessSubset ∣ H.primeHashProduct witnessSet := by
        rw [separates.product_dvd_iff, List.subperm_iff_count]
        exact contained
      have refused : result = .err .inexactDivision :=
        computeSubsetWitness_of_not_dvd self members inexact
      push Not at contained
      rw [refused]
      refine ⟨⟨fun other => ?_, fun outside => (foreign outside).elim⟩,
        ⟨fun _ => ⟨members, contained⟩, fun _ => rfl⟩, fun _ ne => (ne rfl).elim⟩
      cases other

open Sample in
/-- One element of two kinds left over. -/
theorem computeSubsetWitness_exact_of_two :
    let self : Witness Cyclic Bool := ⟨⟨⟨2⟩⟩⟩
    ∃ W', self.computeSubsetWitness Hashing.sample [true, false, true] [true, false] = .ok W' ∧
      exp W'.acc.value 15 = exp self.acc.value 45 := by
  intro self
  obtain ⟨-, -, served⟩ := computeSubsetWitness_exact Hashing.sample self [true, false, true]
    [true, false] (Hashing.sample_separates.mono (Set.subset_univ _))
  obtain ⟨W', returned, -, power⟩ := served (by decide) (by decide)
  exact ⟨W', returned, power⟩

/-! ## One element at a time -/

section

variable [AbelianUnknownOrderGroup E] [DecidableEq T]

/-- The individual witnesses are those the slow way computes one by one: the witness raised to
the hashes of all elements but the one at the index. -/
theorem individual_eq_subset_witnesses (H : Hashing) (self : Witness E T) (elems : List T)
    (ne : elems ≠ []) :
    ∃ ws, Returns (fun fuel => self.computeIndividualWitnesses H fuel elems) ws ∧
      ws.length = elems.length ∧
      ∀ i, ∀ _ : i < ws.length, ∀ _ : i < elems.length,
        ws[i].1 = elems[i] ∧
          self.computeSubsetWitness H elems [elems[i]] = .ok ws[i].2 ∧
          ws[i].2.acc.value = exp self.acc.value (H.primeHashProduct (elems.eraseIdx i)) := by
  obtain ⟨ws, returns, firsts, joint⟩ := computeIndividualWitnesses_returns (H := H) self elems ne
  have lengths : ws.length = elems.length := by rw [← firsts, List.length_map]
  refine ⟨ws, returns, lengths, fun i inside inside' => ?_⟩
  have first : ws[i].1 = elems[i] := by
    simp only [← firsts, List.getElem_map]
  have others := H.primeHashProduct_eraseIdx inside'
  have value : self.acc.value ^ H.primeHashProduct (elems.eraseIdx i) = ws[i].2.acc.value := by
    have nonzero := H.hashToPrime_ne_zero elems[i]
    have member : (H.hashToPrime ws[i].1, ws[i].2.acc.value) ∈ Accumulator.primeWitnesses H ws :=
      List.mem_map_of_mem (List.getElem_mem inside)
    have quotient := joint.zpow_ediv (by rwa [first]) member
    rw [Accumulator.exponent_primeWitnesses, firsts, first, ← others,
      Int.mul_ediv_cancel_left _ nonzero] at quotient
    exact quotient
  have members : ∀ t ∈ [elems[i]], t ∈ elems := by
    intro t member
    rw [List.mem_singleton.mp member]
    exact List.getElem_mem inside'
  have factor : H.primeHashProduct [elems[i]] * H.primeHashProduct (elems.eraseIdx i) =
      H.primeHashProduct elems := by
    rw [H.primeHashProduct_cons, H.primeHashProduct_nil, mul_one, others]
  refine ⟨first, ?_, value.symm⟩
  rw [computeSubsetWitness_of_mul_eq self members factor]
  exact congrArg (fun v : E => (Outcome.ok ⟨⟨v⟩⟩ : Outcome AccError (Witness E T))) value

end

open Sample in
/-- An element that occurs twice. -/
theorem individual_eq_subset_witnesses_of_repeated :
    let self : Witness Cyclic Bool := ⟨⟨⟨2⟩⟩⟩
    let elems := [true, false, true]
    ∃ ws, Returns (fun fuel => self.computeIndividualWitnesses Hashing.sample fuel elems) ws ∧
      ws.length = elems.length ∧
      ∀ i, ∀ _ : i < ws.length, ∀ _ : i < elems.length,
        ws[i].1 = elems[i] ∧
          self.computeSubsetWitness Hashing.sample elems [elems[i]] = .ok ws[i].2 ∧
          ws[i].2.acc.value =
            exp self.acc.value (Hashing.sample.primeHashProduct (elems.eraseIdx i)) :=
  individual_eq_subset_witnesses Hashing.sample (⟨⟨⟨2⟩⟩⟩ : Witness Cyclic Bool)
    [true, false, true] (by simp)

end Witness

end GroupAccumulator
