import GroupAccumulator.Pokcr
import GroupAccumulator.WitnessSplit

/-!
# Where the halving recursions end

`root_factor` and `multi_exp` stop at length one only.  Of a longer list both halves
are shorter and not empty, so the recursions end on every list that is not empty, in
any group.  The empty list is its own half, and nothing looks for it: both recursions
go on for ever, where `divide_and_conquer` asks `xs.is_empty()` first and returns.
-/

namespace GroupAccumulator

open Theory

variable {E T : Type}

/-! ## The empty list -/

section

variable [UnknownOrderGroup E]

theorem Witness.rootFactor_nil (fuel : ℕ) (self : Witness E T) :
    rootFactor fuel self [] = .error .outOfFuel := by
  induction fuel generalizing self with
  | zero => rfl
  | succ fuel ih =>
    have again : rootFactor fuel (self.raise []) [] = .error .outOfFuel := ih _
    rw [rootFactor]
    simp only [List.length_nil, zero_ne_one, if_false, Nat.zero_div, List.take_nil,
      List.drop_nil, again]
    rfl

theorem Witness.computeIndividualWitnesses_nil [Hash T] (H : Hashing) (fuel : ℕ)
    (self : Witness E T) :
    self.computeIndividualWitnesses H fuel [] = .error .outOfFuel := by
  rw [computeIndividualWitnesses, List.map_nil, rootFactor_nil]
  rfl

end

section

variable [GroupTrait E]

theorem multiExp_nil (fuel : ℕ) (x : List ℤ) :
    multiExp fuel ([] : List E) x = .error .outOfFuel := by
  induction fuel generalizing x with
  | zero => rfl
  | succ fuel ih =>
    rw [multiExp]
    · simp only [List.length_nil, Nat.zero_div, sliceTo_of_le (Nat.zero_le _),
        sliceFrom_of_le (Nat.zero_le _), Exec.ok_bind, List.take_nil, List.drop_nil, ih]
      rfl
    · simp

theorem Pokcr.verify_nil [DecidableEq E] (fuel : ℕ) (x : List ℤ) (proof : Pokcr E) :
    verify fuel [] x proof = .error .outOfFuel := by
  rw [verify, multiExp_nil]
  rfl

end

/-! ## All lists -/

theorem Witness.computeIndividualWitnesses_returns_iff [UnknownOrderGroup E] [Hash T]
    (H : Hashing) (self : Witness E T) (elems : List T) :
    (∃ ws, Returns (fun fuel => self.computeIndividualWitnesses H fuel elems) ws) ↔
      elems ≠ [] := by
  constructor
  · intro ends empty
    subst empty
    exact not_returns_of_eq_error (fun n => computeIndividualWitnesses_nil H n self) ends
  · intro ne
    have hashes : elems.map H.hashToPrime ≠ [] := mt List.map_eq_nil_iff.mp ne
    obtain ⟨roots, returns, -⟩ := rootFactor_induct (P := fun _ _ _ => True)
      (fun _ _ => trivial) (fun _ _ _ _ _ _ _ => trivial) self hashes
    exact ⟨elems.zip roots, returns.bind (Returns.of_eq fun _ => rfl)⟩

theorem multiExp_returns_iff [GroupTrait E] {alphas : List E} {x : List ℤ}
    (len : alphas.length = x.length) :
    (∃ y, Returns (fun fuel => multiExp fuel alphas x) y) ↔ alphas ≠ [] := by
  constructor
  · intro ends empty
    subst empty
    exact not_returns_of_eq_error (fun n => multiExp_nil n x) ends
  · intro ne
    obtain ⟨y, returns, -⟩ := multiExp_induct (P := fun _ _ _ => True) (fun _ _ => trivial)
      (fun _ _ _ _ _ _ _ _ => trivial) ne len
    exact ⟨y, returns⟩

theorem Pokcr.verify_returns_iff [GroupTrait E] [DecidableEq E] {alphas : List E} {x : List ℤ}
    (len : alphas.length = x.length) (proof : Pokcr E) :
    (∃ b, Returns (fun fuel => verify fuel alphas x proof) b) ↔ alphas ≠ [] := by
  constructor
  · intro ends empty
    subst empty
    exact not_returns_of_eq_error (fun n => verify_nil n x proof) ends
  · intro ne
    obtain ⟨y, returns⟩ := (multiExp_returns_iff len).mpr ne
    exact ⟨_, returns.bind (Returns.of_eq fun _ => rfl)⟩

/-- In any group the recursions return exactly on the lists that are not empty. -/
theorem list_recursions_return_iff [UnknownOrderGroup E] [DecidableEq E] [Hash T] (H : Hashing)
    (self : Witness E T) (elems : List T) (alphas : List E) (x : List ℤ)
    (len : alphas.length = x.length) (proof : Pokcr E) :
    ((∃ ws, Returns (fun fuel => self.computeIndividualWitnesses H fuel elems) ws ∧
        (elems = [] → ws = [])) ↔ elems ≠ []) ∧
      ((∃ y, Returns (fun fuel => multiExp fuel alphas x) y ∧
        (alphas = [] → y = GroupTrait.id)) ↔ alphas ≠ []) ∧
      ((∃ b, Returns (fun fuel => Pokcr.verify fuel alphas x proof) b) ↔ alphas ≠ []) := by
  refine ⟨⟨?_, ?_⟩, ⟨?_, ?_⟩, Pokcr.verify_returns_iff len proof⟩
  · intro ends
    obtain ⟨ws, returns, -⟩ := ends
    exact (self.computeIndividualWitnesses_returns_iff H elems).mp ⟨ws, returns⟩
  · intro ne
    obtain ⟨ws, returns⟩ := (self.computeIndividualWitnesses_returns_iff H elems).mpr ne
    exact ⟨ws, returns, fun empty => absurd empty ne⟩
  · intro ends
    obtain ⟨y, returns, -⟩ := ends
    exact (multiExp_returns_iff len).mp ⟨y, returns⟩
  · intro ne
    obtain ⟨y, returns⟩ := (multiExp_returns_iff len).mpr ne
    exact ⟨y, returns, fun empty => absurd empty ne⟩

open Sample in
/-- Three elements, and two pairs. -/
theorem list_recursions_return_of_three :
    (∃ ws, Returns (fun fuel => (⟨⟨⟨2⟩⟩⟩ : Witness Cyclic Bool).computeIndividualWitnesses
        Hashing.sample fuel [true, false, true]) ws) ∧
      (∃ y, Returns (fun fuel => multiExp fuel [Cyclic.mk 2, ⟨3⟩] [3, 2]) y) ∧
      ∃ b, Returns (fun fuel => Pokcr.verify fuel [Cyclic.mk 2, ⟨3⟩] [3, 2] ⟨⟨5⟩⟩) b := by
  obtain ⟨individual, multi, verified⟩ := list_recursions_return_iff Hashing.sample
    (⟨⟨⟨2⟩⟩⟩ : Witness Cyclic Bool) [true, false, true] [Cyclic.mk 2, ⟨3⟩] [3, 2] rfl ⟨⟨5⟩⟩
  obtain ⟨ws, returns, -⟩ := individual.mpr (by simp)
  obtain ⟨y, product, -⟩ := multi.mpr (by simp)
  exact ⟨⟨ws, returns⟩, ⟨y, product⟩, verified.mpr (by simp)⟩

open Sample in
/-- Called on the empty list, none of the three ever returns. -/
theorem list_recursions_never_end_on_empty :
    (¬ ∃ ws, Returns (fun fuel => (⟨⟨⟨2⟩⟩⟩ : Witness Cyclic Bool).computeIndividualWitnesses
        Hashing.sample fuel []) ws) ∧
      (¬ ∃ y, Returns (fun fuel => multiExp fuel ([] : List Cyclic) []) y) ∧
      ¬ ∃ b, Returns (fun fuel => Pokcr.verify fuel ([] : List Cyclic) [] (Pokcr.prove [])) b :=
  ⟨not_returns_of_eq_error fun n => Witness.computeIndividualWitnesses_nil Hashing.sample n _,
    not_returns_of_eq_error fun n => multiExp_nil n [],
    not_returns_of_eq_error fun n => Pokcr.verify_nil n [] _⟩

end GroupAccumulator
