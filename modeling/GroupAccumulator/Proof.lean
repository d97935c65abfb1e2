import GroupAccumulator.Group
import GroupAccumulator.Hash
import Mathlib.Tactic.Group

/-!
# Succinct proofs of exponentiation

`Poe` proves `base ^ exp = result`, `Poke2` proves knowledge of such an exponent.
Both divide the exponent by a prime challenge and send the power by the
quotient.  The challenge is a prime hash and so never zero, which makes the
divisions total; `Poe` rounds towards zero and `Poke2` rounds so that the
remainder is not negative.  For completeness only `quotient * l + remainder`
matters, which is the exponent in both cases.

A proof the prover computed is accepted exactly when the statement is true
(`Poe.verify_prove`, `Poke2.verify_prove`).  Whatever proof `Poe` accepts of a
statement holds a root of the gap between the statement and the truth, of the order
of the challenge (`Poe.verify_eq_true_iff_root`).

`Poke2.verify` does not ask whether `r` is a remainder modulo the challenge.  The
equation it checks is invariant under moving `r` by multiples of the challenge
(`Poke2.verify_shift`), so one accepted proof brings a whole family with it.
-/

namespace GroupAccumulator

section

variable {E : Type} [Hash E] [Hash ℤ] (H : Hashing)

/-! ## Proofs of exponentiation -/

/-- NI-PoE. -/
structure Poe (E : Type) where
  Q : E
  deriving DecidableEq

namespace Poe

/-- Computes a proof that `base ^ exp` was performed to derive `result`. -/
def prove [GroupTrait E] (base : E) (exponent : ℤ) (result : E) : Poe E :=
  let l := H.hashToPrime (base, exponent, result)
  let q := exponent.tdiv l
  ⟨exp base q⟩

/-- Verifies that `base ^ exp = result` using the given proof to avoid computation. -/
def verify [GroupTrait E] [DecidableEq E] (base : E) (exponent : ℤ) (result : E)
    (proof : Poe E) : Bool :=
  let l := H.hashToPrime (base, exponent, result)
  let r := exponent.tmod l
  let w := op (exp proof.Q l) (exp base r)
  w = result

variable [AbelianGroup E] [DecidableEq E] {H}

theorem verify_eq_true_iff {base result : E} {n : ℤ} {proof : Poe E} :
    verify H base n result proof = true ↔
      proof.Q ^ H.hashToPrime (base, n, result) *
        base ^ n.tmod (H.hashToPrime (base, n, result)) = result :=
  decide_eq_true_iff

/-- The computed proof is accepted exactly for the true result. -/
theorem verify_prove {base result : E} {n : ℤ} :
    verify H base n result (prove H base n result) = true ↔ base ^ n = result := by
  rw [verify_eq_true_iff]
  change (base ^ n.tdiv (H.hashToPrime (base, n, result))) ^ _ * _ = result ↔ _
  rw [← zpow_mul, ← zpow_add, Int.tdiv_mul_add_tmod]

/-- Without the power an honest proof holds, the proof element is a root of the gap
between the statement and the truth. -/
theorem verify_eq_true_iff_root {base result : E} {n : ℤ} {proof : Poe E} :
    verify H base n result proof = true ↔
      (proof.Q * base ^ (-(n.tdiv (H.hashToPrime (base, n, result))))) ^
        H.hashToPrime (base, n, result) = result * base ^ (-n) := by
  rw [verify_eq_true_iff]
  generalize H.hashToPrime (base, n, result) = l
  have split : base ^ (-(n.tdiv l) * l) * base ^ n = base ^ n.tmod l := by
    rw [← zpow_add]
    congr 1
    linarith [Int.tdiv_mul_add_tmod n l]
  rw [mul_zpow, ← zpow_mul, zpow_neg base n, eq_mul_inv_iff_mul_eq, mul_assoc, split]

end Poe

/-! ## Proofs of knowledge of an exponent -/

/-- NI-PoKE2. -/
structure Poke2 (E : Type) where
  z : E
  Q : E
  r : ℤ
  deriving DecidableEq

namespace Poke2

/-- Computes a proof that you know `exp` such that `base ^ exp = result`. -/
def prove [UnknownOrderGroup E] (base : E) (exponent : ℤ) (result : E) : Poke2 E :=
  let g : E := unknownOrderElem
  let z := exp g exponent
  let l := H.hashToPrime (base, result, z)
  let alpha := H.blake2b (base, result, z, l)
  -- `div_rem_euc`
  let q := exponent / l
  let r := exponent % l
  let Q := exp (op base (exp g alpha)) q
  ⟨z, Q, r⟩

/-- Verifies that the prover knows `exp` such that `base ^ exp = result`. -/
def verify [UnknownOrderGroup E] [DecidableEq E] (base result : E) (proof : Poke2 E) : Bool :=
  let g : E := unknownOrderElem
  let l := H.hashToPrime (base, result, proof.z)
  let alpha := H.blake2b (base, result, proof.z, l)
  let lhs := op (exp proof.Q l) (exp (op base (exp g alpha)) proof.r)
  let rhs := op result (exp proof.z alpha)
  lhs = rhs

/-- The remainder sent is the least nonnegative one. -/
theorem prove_r_bounds [UnknownOrderGroup E] (H : Hashing) (base result : E) (n : ℤ) :
    0 ≤ (prove H base n result).r ∧
      (prove H base n result).r < |H.hashToPrime (base, result, (prove H base n result).z)| := by
  have ne := H.hashToPrime_ne_zero (base, result, (prove H base n result).z)
  exact ⟨Int.emod_nonneg n ne, Int.emod_lt_abs n ne⟩

variable [AbelianUnknownOrderGroup E] [DecidableEq E] {H}

/-- The computed proof is accepted exactly for the true result. -/
theorem verify_prove {base result : E} {n : ℤ} :
    verify H base result (prove H base n result) = true ↔ base ^ n = result := by
  let g : E := unknownOrderElem
  let l := H.hashToPrime (base, result, g ^ n)
  let alpha := H.blake2b (base, result, g ^ n, l)
  have lhs : ((base * g ^ alpha) ^ (n / l)) ^ l * (base * g ^ alpha) ^ (n % l) =
      base ^ n * (g ^ n) ^ alpha := by
    rw [← zpow_mul, ← zpow_add, mul_comm (n / l), Int.mul_ediv_add_emod, mul_zpow, ← zpow_mul,
      ← zpow_mul, mul_comm alpha]
  calc verify H base result (prove H base n result) = true
      ↔ ((base * g ^ alpha) ^ (n / l)) ^ l * (base * g ^ alpha) ^ (n % l) =
          result * (g ^ n) ^ alpha := decide_eq_true_iff
    _ ↔ base ^ n = result := by rw [lhs, mul_left_inj]

/-! ### Proofs out of range -/

/-- `r` is a remainder modulo the challenge. -/
def InRange (H : Hashing) (base result : E) (proof : Poke2 E) : Prop :=
  0 ≤ proof.r ∧ proof.r < H.hashToPrime (base, result, proof.z)

/-- The proof with `k` challenges moved from the power to the remainder. -/
def shift (H : Hashing) (base result : E) (proof : Poke2 E) (k : ℤ) : Poke2 E :=
  let g : E := unknownOrderElem
  let l := H.hashToPrime (base, result, proof.z)
  let alpha := H.blake2b (base, result, proof.z, l)
  ⟨proof.z, op proof.Q (exp (op base (exp g alpha)) (-k)), proof.r + k * l⟩

/-- No `(z, Q, r)` whatever solves the equation the verifier checks. -/
def Unsolvable (H : Hashing) (base result : E) : Prop :=
  let g : E := unknownOrderElem
  ∀ (z Q : E) (r : ℤ),
    let l := H.hashToPrime (base, result, z)
    let alpha := H.blake2b (base, result, z, l)
    Q ^ l * (base * g ^ alpha) ^ r ≠ result * z ^ alpha

theorem verify_shift {base result : E} (proof : Poke2 E) (k : ℤ) :
    verify H base result (shift H base result proof k) = verify H base result proof := by
  rcases proof with ⟨z, Q, r⟩
  let g : E := unknownOrderElem
  let l := H.hashToPrime (base, result, z)
  let alpha := H.blake2b (base, result, z, l)
  have same : (Q * (base * g ^ alpha) ^ (-k)) ^ l * (base * g ^ alpha) ^ (r + k * l) =
      Q ^ l * (base * g ^ alpha) ^ r := by
    rw [mul_zpow, ← zpow_mul, mul_assoc, ← zpow_add]
    ring_nf
  change decide (_ = _) = decide (_ = _)
  exact congrArg (fun lhs => decide (lhs = result * z ^ alpha)) same

theorem unsolvable_iff {base result : E} :
    Unsolvable H base result ↔ ∀ proof, verify H base result proof ≠ true := by
  constructor
  · intro unsolvable proof accepted
    exact unsolvable proof.z proof.Q proof.r (of_decide_eq_true accepted)
  · intro rejected z Q r l alpha solves
    exact rejected ⟨z, Q, r⟩ (decide_eq_true solves)

/-- That accepted proofs have `r` in range, or that their shifts are rejected,
holds only where nothing is accepted at all, and so of no true statement. -/
theorem accepted_in_range_iff (H : Hashing) (base result : E) :
    ((∀ proof, verify H base result proof = true → InRange H base result proof) ↔
        Unsolvable H base result) ∧
      ((∀ proof, verify H base result proof = true →
          ∀ k ≠ 0, verify H base result (shift H base result proof k) = false) ↔
        Unsolvable H base result) ∧
      ∀ n, exp base n = result → ¬ Unsolvable H base result := by
  rw [unsolvable_iff]
  refine ⟨⟨?_, ?_⟩, ⟨?_, ?_⟩, ?_⟩
  · intro range proof accepted
    -- a proof and its shift by one challenge cannot both be in range
    have first := range proof accepted
    have second := range (shift H base result proof 1) ((verify_shift proof 1).trans accepted)
    unfold InRange at first second
    simp only [shift, one_mul] at first second
    omega
  · intro rejected proof accepted
    exact (rejected proof accepted).elim
  · intro unique proof accepted
    have shifted := unique proof accepted 1 one_ne_zero
    rw [verify_shift, accepted] at shifted
    cases shifted
  · intro rejected proof accepted
    exact (rejected proof accepted).elim
  · intro n power rejected
    exact rejected (prove H base n result) (verify_prove.mpr power)

end Poke2

/-- Both provers convince their verifiers of every power, whatever sign and size the exponent
has, and the remainder `Poke2` sends lies below the challenge. -/
theorem proofs_complete [AbelianUnknownOrderGroup E] [DecidableEq E] (H : Hashing) (base : E)
    (n : ℤ) :
    let result := exp base n
    let proof := Poke2.prove H base n result
    let l := H.hashToPrime (base, result, proof.z)
    Poe.verify H base n result (Poe.prove H base n result) = true ∧
      Poke2.verify H base result proof = true ∧
      0 ≤ proof.r ∧ proof.r < |l| ∧ (0 < l → Poke2.InRange H base result proof) := by
  intro result proof l
  obtain ⟨nonneg, below⟩ := Poke2.prove_r_bounds H base result n
  refine ⟨Poe.verify_prove.mpr rfl, Poke2.verify_prove.mpr rfl, nonneg, below, fun positive => ?_⟩
  have bound : proof.r < |l| := below
  rw [abs_of_pos positive] at bound
  exact ⟨nonneg, bound⟩

end

open Sample in
/-- The proof of `1 ^ 7 = 7` with `r` moved out of the range of the challenge. -/
theorem Poke2.verify_accepts_out_of_range :
    let base : Cyclic := ⟨1⟩
    let result : Cyclic := ⟨7⟩
    let proof : Poke2 Cyclic := Poke2.prove Hashing.sample base 7 result
    let moved : Poke2 Cyclic := Poke2.shift Hashing.sample base result proof 1
    Poke2.verify Hashing.sample base result proof = true ∧
      Poke2.verify Hashing.sample base result moved = true ∧ moved = ⟨⟨7⟩, ⟨0⟩, 7⟩ ∧
        Hashing.sample.hashToPrime (base, result, moved.z) = 5 ∧
          ¬ Poke2.InRange Hashing.sample base result moved := by
  refine ⟨by decide, by decide, by decide, by decide, ?_⟩
  intro range
  exact absurd range.2 (by decide)

end GroupAccumulator
