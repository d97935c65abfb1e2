import GroupAccumulator.Membership
import GroupAccumulator.Nonmembership

/-!
# The stress test

The test of `tests/stress.rs`: a set is accumulated at once, and in each round an element
is drawn, added with a proof, deleted again with a proof and proved not to be a member of
the set.  The draws are an argument.  No assertion fails and nothing is unwrapped in vain,
except where a drawn element is in the set or its hash has a factor in common with those of
the set (`stressTest_passes_iff`).
-/

namespace GroupAccumulator

/-- `Result::unwrap` and `Result::expect`. -/
def Outcome.unwrap {ε α : Type} : Outcome ε α → Exec α
  | .ok a => .ok a
  | .err _ => .error .explicitPanic
  | .fault p => .error p

theorem Outcome.unwrap_bind_eq_ok_iff {ε α β : Type} {o : Outcome ε α} {f : α → Exec β} {b : β} :
    (o.unwrap >>= f) = .ok b ↔ ∃ a, o = .ok a ∧ f a = .ok b := by
  constructor
  · intro returned
    obtain ⟨a, unwrapped, rest⟩ := Exec.bind_eq_ok returned
    cases o with
    | ok a' =>
      cases unwrapped
      exact ⟨a, rfl, rest⟩
    | err e => cases unwrapped
    | fault p => cases unwrapped
  · intro h
    obtain ⟨a, rfl, rest⟩ := h
    exact rest

theorem assert_eq_ok_iff {b : Bool} : assert b = .ok () ↔ b = true :=
  ⟨of_assert_eq_ok, fun holds => by rw [holds]; rfl⟩

theorem assert_bind_eq_ok_iff {α : Type} {b : Bool} {f : Unit → Exec α} {a : α} :
    (assert b >>= f) = .ok a ↔ b = true ∧ f () = .ok a := by
  cases b with
  | true => exact (and_iff_right rfl).symm
  | false => exact iff_of_false (fun returned => by cases returned) fun h => by cases h.1

namespace Accumulator

section

variable {E T : Type} [Hash E] [Hash T] [Hash ℤ] [DecidableEq E] [DecidableEq T]

/-- The body of the second loop. -/
def stressRound [UnknownOrderGroup E] (R : Rug) (H : Hashing) (accSet : List T)
    (acc : Accumulator E T) (newElem : T) : Exec Unit := do
  assert (!accSet.contains newElem)
  let (newAcc, addProof) := acc.addWithProof H [newElem]
  assert (newAcc.verifyMembership H newElem addProof)
  let (_, delProof) ← (newAcc.deleteWithProof R H [(newElem, addProof.witness)]).unwrap
  assert (newAcc.verifyMembership H newElem delProof)
  let nonmemProof ← (acc.proveNonmembership R H accSet [newElem]).unwrap
  assert (acc.verifyNonmembership H [newElem] nonmemProof)

variable (E) in
/-- The test, from the elements drawn in its two loops. -/
def stressTest [UnknownOrderGroup E] (R : Rug) (H : Hashing) (accSet newElems : List T) :
    Exec Unit :=
  let acc : Accumulator E T := empty.add H accSet
  newElems.forM (stressRound R H accSet acc)

variable [AbelianUnknownOrderGroup E] {R : Rug} {H : Hashing} {acc : Accumulator E T}
variable {accSet : List T} {t : T}

/-! ## One round -/

omit [DecidableEq T] in
/-- What was added last is deleted with the accumulator before as the witness. -/
theorem delete_added (acc : Accumulator E T) (t : T) :
    ∃ acc' membership,
      (acc.add H [t]).deleteWithProof R H [(t, ⟨acc⟩)] = .ok (acc', membership) := by
  have valid : Valid H (acc.add H [t]).value [(t, (⟨acc⟩ : Witness E T))] := by
    intro entry member
    cases List.mem_singleton.mp member
    change acc.value ^ H.hashToPrime t = acc.value ^ H.primeHashProduct [t]
    rw [H.primeHashProduct_singleton]
  obtain ⟨W, run, -⟩ := delete_fold_eq_ok (R := R) valid (List.pairwise_singleton _ _)
  have deleted : (acc.add H [t]).delete_ R H [(t, ⟨acc⟩)] = _ := run
  unfold deleteWithProof
  rw [deleted]
  exact ⟨_, _, rfl⟩

omit [DecidableEq T] in
/-- About the accumulator of a set, a proof is computed and accepted for every element
whose hash is coprime to those of the set. -/
theorem nonmember_proved
    (coprime : IsCoprime (H.primeHashProduct [t]) (H.primeHashProduct accSet)) :
    ∃ proof, ((empty : Accumulator E T).add H accSet).proveNonmembership R H accSet [t] =
        .ok proof ∧ ((empty : Accumulator E T).add H accSet).verifyNonmembership H [t] proof =
        true := by
  refine ⟨_, proveNonmembership_eq_ok coprime, verify_honest_iff.mpr ?_⟩
  have bez := R.bezout_of_gcd_eq_one (R.gcd_eq_one_iff.mpr coprime)
  have value : ((empty : Accumulator E T).add H accSet).value =
      (unknownOrderElem : E) ^ H.primeHashProduct accSet := rfl
  rw [value, ← zpow_mul, ← zpow_add, mul_comm (H.primeHashProduct accSet), bez, zpow_one]

omit [AbelianUnknownOrderGroup E] in
/-- A round passes when all it asserts is true and all it unwraps is there. -/
theorem stressRound_eq_ok_iff_all [UnknownOrderGroup E] (acc : Accumulator E T) :
    stressRound R H accSet acc t = .ok () ↔
      t ∉ accSet ∧
      (acc.add H [t]).verifyMembership H t (acc.addWithProof H [t]).2 = true ∧
      (∃ deleted, (acc.add H [t]).deleteWithProof R H [(t, ⟨acc⟩)] = .ok deleted ∧
        (acc.add H [t]).verifyMembership H t deleted.2 = true) ∧
      ∃ nonmember, acc.proveNonmembership R H accSet [t] = .ok nonmember ∧
        acc.verifyNonmembership H [t] nonmember = true := by
  have new : (!accSet.contains t) = true ↔ t ∉ accSet := by
    rw [Bool.not_eq_true', ← Bool.not_eq_true, List.contains_iff_mem]
  unfold stressRound
  rw [assert_bind_eq_ok_iff, new, and_congr_right_iff]
  intro absent
  change (assert ((acc.add H [t]).verifyMembership H t (acc.addWithProof H [t]).2) >>= _) = _ ↔ _
  simp only [assert_bind_eq_ok_iff, Outcome.unwrap_bind_eq_ok_iff, assert_eq_ok_iff]
  simp only [← and_assoc, exists_and_right]
  rfl

/-- A round passes unless the element is in the set, or has a factor in common with it. -/
theorem stressRound_eq_ok_iff :
    stressRound R H accSet ((empty : Accumulator E T).add H accSet) t = .ok () ↔
      t ∉ accSet ∧ IsCoprime (H.hashToPrime t) (H.primeHashProduct accSet) := by
  let acc : Accumulator E T := empty.add H accSet
  rw [stressRound_eq_ok_iff_all, and_congr_right_iff, ← H.primeHashProduct_singleton]
  intro absent
  constructor
  · intro passed
    obtain ⟨-, -, nonmember, proved, -⟩ := passed
    by_contra common
    rw [proveNonmembership_eq_err common] at proved
    cases proved
  · intro coprime
    have added : (acc.add H [t]).verifyMembership H t (acc.addWithProof H [t]).2 = true :=
      (proves_of_addWithProof rfl).verify_single
    obtain ⟨acc', membership, deleted⟩ := delete_added (R := R) (H := H) acc t
    have kept : (acc.add H [t]).verifyMembership H t membership = true :=
      (proves_of_deleteWithProof deleted).verify_single
    exact ⟨added, ⟨_, deleted, kept⟩, nonmember_proved coprime⟩

/-! ## The test -/

theorem stressTest_eq_ok_iff {newElems : List T} :
    stressTest E R H accSet newElems = .ok () ↔
      ∀ t ∈ newElems, t ∉ accSet ∧ IsCoprime (H.hashToPrime t) (H.primeHashProduct accSet) := by
  unfold stressTest
  induction newElems with
  | nil => exact iff_of_true rfl (List.forall_mem_nil _)
  | cons t newElems ih =>
    rw [List.forall_mem_cons, ← ih, ← stressRound_eq_ok_iff (E := E) (R := R)]
    constructor
    · intro passed
      obtain ⟨_, first, rest⟩ := Exec.bind_eq_ok passed
      exact ⟨first, rest⟩
    · intro passed
      change (stressRound R H accSet _ t >>= fun _ => _) = .ok ()
      rw [passed.1]
      exact passed.2

/-- The stress test passes exactly when every element it draws later is new and its hash
coprime to those of the set.  Where `hash_to_prime` tells the elements apart, it passes
unless an element of the set is drawn again. -/
theorem stressTest_passes_iff (R : Rug) (H : Hashing) (accSet newElems : List T) :
    (stressTest E R H accSet newElems = .ok () ↔
      ∀ t ∈ newElems, t ∉ accSet ∧ IsCoprime (H.hashToPrime t) (H.primeHashProduct accSet)) ∧
    (H.Separates {t | t ∈ accSet ++ newElems} →
      (stressTest E R H accSet newElems = .ok () ↔ ∀ t ∈ newElems, t ∉ accSet)) := by
  refine ⟨stressTest_eq_ok_iff, fun separates => ?_⟩
  rw [stressTest_eq_ok_iff]
  refine ⟨fun passed t drawn => (passed t drawn).1, fun new t drawn => ⟨new t drawn, ?_⟩⟩
  have apart : H.Separates {u | u ∈ accSet ++ [t]} := by
    apply separates.mono
    intro u member
    cases List.mem_append.mp member with
    | inl set => exact List.mem_append_left _ set
    | inr same => exact List.mem_append_right _ (List.mem_singleton.mp same ▸ drawn)
  have coprime := apart.coprime_products fun u same => List.mem_singleton.mp same ▸ new t drawn
  rwa [H.primeHashProduct_singleton] at coprime

end

end Accumulator

end GroupAccumulator
