import GroupAccumulator.AccumulatorDelete
import Mathlib.Algebra.BigOperators.Group.Multiset.Basic

/-!
# Runs of additions and deletions

The abstract accumulator is a multiset: adding a list adds its elements, and
deleting takes one occurrence of each element away.  `Represents` relates an
accumulator to the multiset it stands for, `g` raised to the product of the
prime hashes.  `represents_step` carries it over one operation, where a
deletion is given the honest witnesses, and `represents_run` over any sequence
of operations, none of which fails.
-/

namespace GroupAccumulator

open Theory

namespace Accumulator

variable {E T : Type}

/-! ## The product of a multiset -/

/-- The product of the prime hashes of a multiset. -/
def product [Hash T] (H : Hashing) (M : Multiset T) : ℤ := (M.map H.hashToPrime).prod

theorem product_coe [Hash T] (H : Hashing) (xs : List T) :
    product H (xs : Multiset T) = H.primeHashProduct xs := rfl

theorem product_add [Hash T] (H : Hashing) (M N : Multiset T) :
    product H (M + N) = product H M * product H N := by
  rw [product, Multiset.map_add, Multiset.prod_add]
  rfl

/-- The accumulator stands for the multiset. -/
def Represents [Hash T] [UnknownOrderGroup E] (H : Hashing) (M : Multiset T)
    (acc : Accumulator E T) : Prop :=
  acc.value = exp unknownOrderElem (product H M)

theorem represents_empty [Hash T] [AbelianUnknownOrderGroup E] {H : Hashing} :
    Represents H 0 (empty : Accumulator E T) :=
  (zpow_one (unknownOrderElem : E)).symm

theorem represents_add [Hash T] [AbelianUnknownOrderGroup E] {H : Hashing} {M : Multiset T}
    {acc : Accumulator E T} (rep : Represents H M acc) (xs : List T) :
    Represents H (M + (xs : Multiset T)) (acc.add H xs) := by
  change acc.value ^ H.primeHashProduct xs = unknownOrderElem ^ product H (M + (xs : Multiset T))
  rw [rep, product_add, product_coe]
  exact (zpow_mul unknownOrderElem (product H M) (H.primeHashProduct xs)).symm

/-! ## The abstract accumulator -/

/-- One call of `add` or of `delete`, with the elements it is called for. -/
inductive Operation (T : Type)
  | add (xs : List T)
  | delete (xs : List T)

variable [DecidableEq T]

/-- What the operation does to a multiset. -/
def Operation.contents (M : Multiset T) : Operation T → Multiset T
  | .add xs => M + (xs : Multiset T)
  | .delete xs => M - (xs : Multiset T)

/-- A deletion names elements that are there, each once. -/
def Operation.Allowed (M : Multiset T) : Operation T → Prop
  | .add _ => True
  | .delete xs => xs.Nodup ∧ ∀ e ∈ xs, e ∈ M

/-- The elements the operation brings in. -/
def Operation.brings : Operation T → Set T
  | .add xs => {e | e ∈ xs}
  | .delete _ => ∅

/-- The multiset after a sequence of operations. -/
def contents (M : Multiset T) (ops : List (Operation T)) : Multiset T :=
  ops.foldl Operation.contents M

/-- Every operation of the sequence is allowed when it is reached. -/
def Allowed : Multiset T → List (Operation T) → Prop
  | _, [] => True
  | M, op :: ops => op.Allowed M ∧ Allowed (op.contents M) ops

/-- The elements a sequence of operations brings in. -/
def brings (ops : List (Operation T)) : Set T := {e | ∃ op ∈ ops, e ∈ op.brings}

theorem Operation.contents_within {M : Multiset T} {S : Set T} {op : Operation T}
    (within : ∀ e ∈ M, e ∈ S) (brought : op.brings ⊆ S) : ∀ e ∈ op.contents M, e ∈ S := by
  intro e member
  cases op with
  | add xs =>
    cases Multiset.mem_add.mp member with
    | inl old => exact within e old
    | inr new => exact brought new
  | delete xs => exact within e (Multiset.mem_of_le (Multiset.sub_le_self M xs) member)

/-! ## The calls -/

variable [Hash T] [AbelianUnknownOrderGroup E]

/-- The witness of `e` computed from the multiset itself. -/
def honestWitness (H : Hashing) (M : Multiset T) (e : T) : Witness E T :=
  ⟨⟨exp unknownOrderElem (product H (M.erase e))⟩⟩

/-- What is left after deleting `xs` is a joint root for the honest witnesses. -/
theorem jointRoot_honest {H : Hashing} {M : Multiset T} {xs : List T}
    (nodup : xs.Nodup) (present : ∀ e ∈ xs, e ∈ M) :
    JointRoot ((unknownOrderElem : E) ^ product H M)
      (primeWitnesses H (xs.map fun e => (e, (honestWitness H M e : Witness E T))))
      (unknownOrderElem ^ product H (M - (xs : Multiset T))) := by
  have split : M = (M - (xs : Multiset T)) + (xs : Multiset T) := by
    refine (Multiset.sub_add_cancel ?_).symm
    exact (Multiset.le_iff_subset (Multiset.coe_nodup.mpr nodup)).mpr present
  have power : (unknownOrderElem : E) ^ product H M =
      (unknownOrderElem ^ product H (M - (xs : Multiset T))) ^ (xs.map H.hashToPrime).prod := by
    rw [← zpow_mul]
    exact congrArg _ ((congrArg (product H) split).trans (product_add H _ _))
  rw [power, primeWitnesses, List.map_map]
  apply JointRoot.of_map
  intro x₁ e x₂ parts
  subst parts
  have erased : M.erase e =
      (M - ((x₁ ++ e :: x₂ : List T) : Multiset T)) + ((x₁ : Multiset T) + x₂) := by
    conv_lhs => rw [split]
    rw [← Multiset.coe_add, ← Multiset.cons_coe, Multiset.add_cons, Multiset.add_cons,
      Multiset.erase_cons_head]
  change _ = (unknownOrderElem : E) ^ product H (M.erase e)
  rw [← zpow_mul, erased, product_add, product_add]
  rfl

variable [DecidableEq E] (R : Rug) (H : Hashing)

/-- The call an operation stands for, on an accumulator of `M`. -/
def Operation.call (M : Multiset T) (acc : Accumulator E T) :
    Operation T → Outcome AccError (Accumulator E T)
  | .add xs => .ok (acc.add H xs)
  | .delete xs => acc.delete R H (xs.map fun e => (e, honestWitness H M e))

/-- The calls of a sequence of operations, in order. -/
def run : Multiset T → Accumulator E T → List (Operation T) →
    Outcome AccError (Accumulator E T)
  | _, acc, [] => .ok acc
  | M, acc, op :: ops => do
    let next ← op.call R H M acc
    run (op.contents M) next ops

/-! ## One operation -/

variable {R H} {M : Multiset T} {S : Set T} {acc : Accumulator E T}

/-- A deletion with honest witnesses succeeds and leaves the multiset that is left. -/
theorem represents_delete (rep : Represents H M acc) (separates : H.Separates S)
    (within : ∀ e ∈ M, e ∈ S) {xs : List T} (nodup : xs.Nodup) (present : ∀ e ∈ xs, e ∈ M) :
    ∃ next, acc.delete R H (xs.map fun e => (e, honestWitness H M e)) = .ok next ∧
      Represents H (M - (xs : Multiset T)) next := by
  have coprime : Coprime H (xs.map fun e => (e, (honestWitness H M e : Witness E T))) := by
    have elements :
        (xs.map fun e => (e, (honestWitness H M e : Witness E T))).map Prod.fst = xs := by
      rw [List.map_map]
      exact List.map_id xs
    refine coprime_of_separates separates ?_ ?_
    · rw [elements]
      exact nodup
    · rw [elements]
      intro e member
      exact within e (present e member)
  have returned := delete_fold_of_jointRoot (R := R) (jointRoot_honest nodup present) coprime
  rcases acc with ⟨value⟩
  cases rep
  refine ⟨⟨unknownOrderElem ^ product H (M - (xs : Multiset T))⟩, ?_, rfl⟩
  rw [delete]
  exact congrArg (· >>= _) returned

/-- An allowed operation does to the accumulator what it does to the multiset. -/
theorem represents_step (rep : Represents H M acc) (separates : H.Separates S)
    (within : ∀ e ∈ M, e ∈ S) {op : Operation T} (allowed : op.Allowed M) :
    ∃ next, op.call R H M acc = .ok next ∧ Represents H (op.contents M) next := by
  cases op with
  | add xs => exact ⟨_, rfl, represents_add rep xs⟩
  | delete xs => exact represents_delete rep separates within allowed.1 allowed.2

/-! ## Sequences of operations -/

/-- No allowed sequence of operations fails, and it leaves the accumulator of
the multiset it ends in. -/
theorem represents_run (ops : List (Operation T)) (rep : Represents H M acc)
    (separates : H.Separates S) (within : ∀ e ∈ M, e ∈ S) (brought : brings ops ⊆ S)
    (allowed : Allowed M ops) :
    ∃ last, run R H M acc ops = .ok last ∧ Represents H (contents M ops) last := by
  induction ops generalizing M acc with
  | nil => exact ⟨acc, rfl, rep⟩
  | cons op ops ih =>
    rcases represents_step (R := R) rep separates within allowed.1 with ⟨next, called, rep⟩
    have brought' : op.brings ⊆ S := fun e he => brought ⟨op, List.mem_cons_self, he⟩
    obtain ⟨last, rest, rep⟩ := ih rep (op.contents_within within brought')
      (fun e ⟨op', member, he⟩ => brought ⟨op', List.mem_cons_of_mem op member, he⟩) allowed.2
    refine ⟨last, ?_, rep⟩
    rw [run, called]
    exact rest

/-- From the empty accumulator every allowed run ends in the accumulator of its
final multiset, so runs with the same final multiset end in the same one. -/
theorem run_from_empty (R : Rug) (H : Hashing) (ops : List (Operation T))
    (allowed : Allowed 0 ops) (separates : H.Separates (brings ops)) :
    (∃ last : Accumulator E T, run R H 0 empty ops = .ok last ∧
        last.value = exp unknownOrderElem (product H (contents 0 ops))) ∧
      ∀ ops', Allowed 0 ops' → H.Separates (brings ops') → contents 0 ops' = contents 0 ops →
        run R H 0 (empty : Accumulator E T) ops' = run R H 0 empty ops := by
  have ends {ops : List (Operation T)} (allowed : Allowed 0 ops)
      (separates : H.Separates (brings ops)) :
      ∃ last : Accumulator E T, run R H 0 empty ops = .ok last ∧
        Represents H (contents 0 ops) last :=
    represents_run ops represents_empty separates (by simp) subset_rfl allowed
  rcases ends allowed separates with ⟨last, ran, value⟩
  refine ⟨⟨last, ran, value⟩, ?_⟩
  intro ops' allowed' separates' same
  rcases ends allowed' separates' with ⟨last', ran', value'⟩
  rw [same] at value'
  rcases last with ⟨v⟩
  rcases last' with ⟨v'⟩
  cases value.trans value'.symm
  rw [ran, ran']

/-- Two elements added, one of them deleted again. -/
theorem run_from_empty_add_delete :
    let ops : List (Operation Bool) := [.add [true, false], .delete [true]]
    (∃ last : Accumulator Cyclic Bool, run Rug.gmp Hashing.sample 0 empty ops = .ok last ∧
        last.value = exp unknownOrderElem (product Hashing.sample (contents 0 ops))) ∧
      ∀ ops', Allowed 0 ops' → Hashing.sample.Separates (brings ops') →
        contents 0 ops' = contents 0 ops →
        run Rug.gmp Hashing.sample 0 (empty : Accumulator Cyclic Bool) ops' =
          run Rug.gmp Hashing.sample 0 empty ops := by
  refine run_from_empty Rug.gmp Hashing.sample _ ⟨trivial, ⟨?_, ?_⟩, trivial⟩ ?_
  · decide
  · decide
  · exact Hashing.sample_separates.mono (Set.subset_univ _)

end Accumulator

end GroupAccumulator
