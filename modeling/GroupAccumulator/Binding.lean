import GroupAccumulator.Membership
import GroupAccumulator.VectorCommitmentUpdate
import Mathlib.Data.ZMod.Basic

/-!
# What accepted proofs bind

An accepted proof of exponentiation shows the power it is about, or it holds a root of an
element that is not the identity (`Poe.Forged`).  For proofs of knowledge the same holds
from an exponent of `z` with the remainder that was sent (`Poke2.verify_iff_root`).

What does it take to convince the verifiers that an index is set and that it is unset?
Accepted proofs of both say `w ^ x = acc` and `d ^ y = gvInv`, unless one is forged, for
products `x` and `y` with the index's prime `p` in common.  Where moreover
`gvInv = g * v⁻¹` and `v = acc ^ b`, they combine to a `p`-th root of `g`
(`common_factor_root`).

The verifiers check neither of the two.  The second is what a proof of knowledge is for.
Without the first the unset bits are not proved at all: a proof that is accepted for the
set bits is accepted beside a nonmembership proof for any others (`verify_unset_iff`).
-/

namespace GroupAccumulator

/-! ## The root -/

/-- Powers of both kinds with a factor in common. -/
theorem common_factor_root {G : Type} [CommGroup G] {g acc w d v gvInv : G} {p x y b : ℤ}
    (hx : p ∣ x) (hy : p ∣ y) (member : w ^ x = acc) (apart : d ^ y = gvInv)
    (knows : v = acc ^ b) (tied : gvInv = g * v⁻¹) : (d ^ (y / p) * w ^ (x / p * b)) ^ p = g := by
  have first : (d ^ (y / p)) ^ p = gvInv := by
    rw [← zpow_mul, Int.ediv_mul_cancel hy, apart]
  have second : (w ^ (x / p * b)) ^ p = v := by
    rw [← zpow_mul, mul_right_comm, Int.ediv_mul_cancel hx, zpow_mul, member, knows]
  rw [mul_zpow, first, second, tied, inv_mul_cancel_right]

/-! ## Forged proofs of exponentiation -/

/-- The proof holds a root of an element that is not the identity, of the order of the
challenge. -/
def Poe.Forged {E : Type} [Hash E] [Hash ℤ] [AbelianGroup E] (H : Hashing) (base : E) (n : ℤ)
    (result : E) (proof : Poe E) : Prop :=
  let l := H.hashToPrime (base, n, result)
  result * base ^ (-n) ≠ 1 ∧ (proof.Q * base ^ (-(n.tdiv l))) ^ l = result * base ^ (-n)

section

variable {E : Type} [AbelianGroup E] [DecidableEq E] [Hash E] [Hash ℤ] {H : Hashing}

theorem Poe.eq_or_forged {base result : E} {n : ℤ} {proof : Poe E}
    (accepted : Poe.verify H base n result proof = true) :
    base ^ n = result ∨ Poe.Forged H base n result proof := by
  by_cases same : base ^ n = result
  · exact Or.inl same
  · refine Or.inr ⟨?_, Poe.verify_eq_true_iff_root.mp accepted⟩
    rw [zpow_neg]
    exact mul_inv_eq_one.not.mpr (Ne.symm same)

end

/-! ## Proofs of knowledge -/

namespace Poke2

/-- The proof element without the power the honest prover puts there for the exponent
`r + k * l`. -/
def residue {E : Type} [UnknownOrderGroup E] [Hash E] [Hash ℤ] (H : Hashing) (base result : E)
    (proof : Poke2 E) (k : ℤ) : E :=
  let g : E := unknownOrderElem
  let l := H.hashToPrime (base, result, proof.z)
  let alpha := H.blake2b (base, result, proof.z, l)
  op proof.Q (exp (op base (exp g alpha)) (-k))

/-- From an exponent `n` of `z` with the remainder that was sent: the proof is accepted
exactly when it holds a root of the gap between `result` and `base ^ n`.  So either `n` is
the exponent, or the gap is not the identity and the root was found. -/
theorem verify_iff_root {E : Type} [AbelianUnknownOrderGroup E] [DecidableEq E] [Hash E] [Hash ℤ]
    (H : Hashing) (base result : E) (proof : Poke2 E) (n k : ℤ)
    (power : proof.z = exp unknownOrderElem n)
    (remainder : proof.r + k * H.hashToPrime (base, result, proof.z) = n) :
    let l := H.hashToPrime (base, result, proof.z)
    (verify H base result proof = true ↔
        exp (residue H base result proof k) l = op result (exp base (-n))) ∧
      (verify H base result proof = true → exp base n = result ∨
        op result (exp base (-n)) ≠ GroupTrait.id ∧
          exp (residue H base result proof k) l = op result (exp base (-n))) := by
  intro l
  let g : E := unknownOrderElem
  let alpha := H.blake2b (base, result, proof.z, l)
  have moved : proof.Q ^ l * (base * g ^ alpha) ^ proof.r =
      (proof.Q * (base * g ^ alpha) ^ (-k)) ^ l * (base ^ n * (g ^ n) ^ alpha) := by
    have whole : base ^ n * (g ^ n) ^ alpha = (base * g ^ alpha) ^ (proof.r + k * l) := by
      rw [remainder, mul_zpow, ← zpow_mul, ← zpow_mul, mul_comm alpha]
    rw [whole, mul_zpow proof.Q, ← zpow_mul, mul_assoc, ← zpow_add]
    ring_nf
  have accepted_iff : verify H base result proof = true ↔
      (proof.Q * (base * g ^ alpha) ^ (-k)) ^ l = result * base ^ (-n) := by
    calc verify H base result proof = true
        ↔ proof.Q ^ l * (base * g ^ alpha) ^ proof.r = result * proof.z ^ alpha :=
          decide_eq_true_iff
      _ ↔ (proof.Q * (base * g ^ alpha) ^ (-k)) ^ l * base ^ n * (g ^ n) ^ alpha =
            result * (g ^ n) ^ alpha := by rw [moved, power, exp_eq_zpow, mul_assoc]
      _ ↔ (proof.Q * (base * g ^ alpha) ^ (-k)) ^ l = result * base ^ (-n) := by
          rw [mul_left_inj, zpow_neg base n, eq_mul_inv_iff_mul_eq]
  refine ⟨accepted_iff, fun accepted => ?_⟩
  by_cases same : base ^ n = result
  · exact Or.inl same
  · refine Or.inr ⟨?_, accepted_iff.mp accepted⟩
    change result * base ^ (-n) ≠ 1
    rw [zpow_neg]
    exact mul_inv_eq_one.not.mpr (Ne.symm same)

end Poke2

open Sample in
/-- The honest proof of `1 ^ 7 = 7`. -/
theorem Poke2.verify_iff_root_seven :
    let base : Cyclic := ⟨1⟩
    let result : Cyclic := ⟨7⟩
    let proof : Poke2 Cyclic := Poke2.prove Hashing.sample base 7 result
    let W := Poke2.residue Hashing.sample base result proof 1
    (Poke2.verify Hashing.sample base result proof = true ↔
        exp W 5 = op result (exp base (-7))) ∧
      (Poke2.verify Hashing.sample base result proof = true → exp base 7 = result ∨
        op result (exp base (-7)) ≠ GroupTrait.id ∧ exp W 5 = op result (exp base (-7))) := by
  intro base result proof
  exact Poke2.verify_iff_root Hashing.sample base result proof 7 1 (by decide) (by decide)

/-! ## Openings -/

theorem mem_indicesOf {bit : Bool} {i : ℤ} {bits : List (Bool × ℤ)} (member : (bit, i) ∈ bits) :
    i ∈ indicesOf bit bits :=
  List.mem_map.mpr ⟨(bit, i), List.mem_filter.mpr ⟨member, decide_eq_true rfl⟩, rfl⟩

namespace VectorCommitment

section

variable {E : Type} [AbelianUnknownOrderGroup E] [DecidableEq E] [Hash E] [Hash ℤ]
variable {H : Hashing} {vc : VectorCommitment E}

/-- Acceptance is that of the two halves, for distinct indices. -/
theorem verify_eq_true_iff {bits : List (Bool × ℤ)} {proof : VectorProof E} :
    vc.verify H bits proof = true ↔ (indices bits).Nodup ∧
      vc.acc.verifyMembershipBatch H (indicesOf true bits) proof.membershipProof = true ∧
      vc.acc.verifyNonmembership H (indicesOf false bits) proof.nonmembershipProof = true := by
  unfold verify
  rw [groupElemsByBit_eq]
  by_cases distinct : (indices bits).Nodup
  · rw [if_pos distinct]
    exact Bool.and_eq_true_iff.trans (and_iff_right distinct).symm
  · rw [if_neg distinct]
    exact iff_of_false Bool.false_ne_true fun accepted => distinct accepted.1

/-- Two openings that are both accepted, one with an index set and one with the same index
unset: when the second is tied to the commitment, they give a root of `g` of the order of
the index's prime, or one of the two proofs of exponentiation is forged. -/
theorem contradictory_openings_root (H : Hashing) (vc : VectorCommitment E) (i b : ℤ)
    (bits bits' : List (Bool × ℤ)) (proof proof' : VectorProof E)
    (set : (true, i) ∈ bits) (unset : (false, i) ∈ bits')
    (accepted : vc.verify H bits proof = true) (accepted' : vc.verify H bits' proof' = true)
    (knows : proof'.nonmembershipProof.v = exp vc.acc.value b)
    (tied : proof'.nonmembershipProof.gvInv =
      op unknownOrderElem (inv proof'.nonmembershipProof.v)) :
    let p := H.hashToPrime i
    let x := H.primeHashProduct (indicesOf true bits)
    let y := H.primeHashProduct (indicesOf false bits')
    let w := proof.membershipProof.witness.acc.value
    let d := proof'.nonmembershipProof.d
    (d ^ (y / p) * w ^ (x / p * b)) ^ p = unknownOrderElem ∨
      Poe.Forged H w x vc.acc.value proof.membershipProof.proof ∨
      Poe.Forged H d y proof'.nonmembershipProof.gvInv proof'.nonmembershipProof.poeProof := by
  intro p x y w d
  obtain ⟨-, member, -⟩ := verify_eq_true_iff.mp accepted
  obtain ⟨-, -, nonmember⟩ := verify_eq_true_iff.mp accepted'
  obtain ⟨-, apart⟩ := Bool.and_eq_true_iff.mp nonmember
  rcases Poe.eq_or_forged member with member | forged
  · rcases Poe.eq_or_forged apart with apart | forged
    · left
      exact common_factor_root (H.hashToPrime_dvd_product (mem_indicesOf set))
        (H.hashToPrime_dvd_product (mem_indicesOf unset)) member apart knows tied
    · exact Or.inr (Or.inr forged)
  · exact Or.inr (Or.inl forged)

/-! ## Untied proofs -/

/-- Whatever the unset bits, a membership proof that is accepted for the set ones is part of
an accepted proof of them all.  In particular any distinct indices, set or not, are
accepted as unset. -/
theorem verify_unset_iff (H : Hashing) (vc : VectorCommitment E) (bits : List (Bool × ℤ)) :
    (∀ membership, (∃ nonmembership, vc.verify H bits ⟨membership, nonmembership⟩ = true) ↔
      (indices bits).Nodup ∧
        vc.acc.verifyMembershipBatch H (indicesOf true bits) membership = true) ∧
    (indicesOf true bits = [] →
      ((∃ proof, vc.verify H bits proof = true) ↔ (indices bits).Nodup)) := by
  have beside (membership : MembershipProof E ℤ) :
      (∃ nonmembership, vc.verify H bits ⟨membership, nonmembership⟩ = true) ↔
        (indices bits).Nodup ∧
          vc.acc.verifyMembershipBatch H (indicesOf true bits) membership = true := by
    constructor
    · intro h
      obtain ⟨nonmembership, accepted⟩ := h
      obtain ⟨distinct, member, -⟩ := verify_eq_true_iff.mp accepted
      exact ⟨distinct, member⟩
    · intro h
      obtain ⟨distinct, member⟩ := h
      have unset : vc.acc.verifyNonmembership H (indicesOf false bits) _ = true :=
        Accumulator.verify_trivial (indicesOf false bits)
      exact ⟨_, verify_eq_true_iff.mpr ⟨distinct, member, unset⟩⟩
  refine ⟨beside, fun noOnes => ⟨fun h => ?_, fun distinct => ?_⟩⟩
  · obtain ⟨proof, accepted⟩ := h
    exact (verify_eq_true_iff.mp accepted).1
  · -- the commitment is its own witness for no elements
    have member : vc.acc.verifyMembershipBatch H ([] : List ℤ)
        ⟨⟨vc.acc⟩, Poe.prove H vc.acc.value 1 vc.acc.value⟩ = true :=
      Poe.verify_prove.mpr (zpow_one vc.acc.value)
    rw [← noOnes] at member
    obtain ⟨nonmembership, accepted⟩ := (beside _).mpr ⟨distinct, member⟩
    exact ⟨_, accepted⟩

end

/-! ## Where roots are easy -/

open Sample

/-- The group of order seven. -/
local instance : AbelianUnknownOrderGroup (Multiplicative (ZMod 7)) :=
  .ofCommGroup inferInstance (Multiplicative.ofAdd 1)

/-- The index `0`, which hashes to five, is set; `g ^ 3` is a fifth root of `g`. -/
theorem contradictory_openings_root_seven :
    let g : Multiplicative (ZMod 7) := unknownOrderElem
    let vc : VectorCommitment (Multiplicative (ZMod 7)) := ⟨⟨g ^ (5 : ℤ)⟩⟩
    let membership : MembershipProof (Multiplicative (ZMod 7)) ℤ :=
      ⟨⟨⟨g⟩⟩, Poe.prove Hashing.sample g 5 (g ^ (5 : ℤ))⟩
    let unset : VectorProof (Multiplicative (ZMod 7)) :=
      ⟨⟨⟨vc.acc⟩, Poe.prove Hashing.sample vc.acc.value 1 vc.acc.value⟩,
        Accumulator.assemble Hashing.sample vc.acc [0] (g ^ (3 : ℤ)) 0 g⟩
    ((g ^ (3 : ℤ)) ^ ((5 : ℤ) / 5) * g ^ ((5 : ℤ) / 5 * 0)) ^ (5 : ℤ) = g ∨
      Poe.Forged Hashing.sample g 5 vc.acc.value membership.proof ∨
      Poe.Forged Hashing.sample (g ^ (3 : ℤ)) 5 g unset.nonmembershipProof.poeProof := by
  intro g vc membership unset
  exact contradictory_openings_root Hashing.sample vc 0 0 [(true, 0)] [(false, 0)]
    ⟨membership, Accumulator.assemble Hashing.sample vc.acc [] 1 0 1⟩ unset
    (by decide) (by decide) (by decide) (by decide) (by decide) (by decide)

end VectorCommitment

end GroupAccumulator
