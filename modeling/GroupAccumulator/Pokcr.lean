import GroupAccumulator.Theory.CofactorPowers
import GroupAccumulator.Theory.Fueled
import GroupAccumulator.Theory.Halves
import GroupAccumulator.Group
import GroupAccumulator.Outcome

/-!
# Proofs of knowledge of co-prime roots

`multiExp` halves its two slices until one element is left, and `Pokcr` checks
one power against it.  The recursion has no case for empty slices, on which it
never ends, so it runs on fuel; slicing `x` panics where `x` is too short.

On non-empty slices of the same length it returns, and what it returns has every
property the halves pass on (`multiExp_induct`); in a lawful group it is
`cofactorPowers`.  The equation `Pokcr` checks is then the one `exists_root` takes
apart: with pairwise coprime exponents an accepted proof holds a root for every index.
-/

namespace GroupAccumulator

open Theory

variable {E : Type}

/-! ## Multi-exponentiation -/

/-- Computes the product of `alpha_i ^ (p(x) / x_i)`, where `i` is an index into the
`alphas` and `x` arrays, and `p(x)` is the product of all `x_i`. -/
def multiExp [GroupTrait E] : ℕ → List E → List ℤ → Exec E
  | 0, _, _ => .error .outOfFuel
  | _ + 1, [alpha], _ => return alpha
  | fuel + 1, alphas, x => do
    let nHalf := alphas.length / 2
    let alphaL ← sliceTo alphas nHalf
    let alphaR ← sliceFrom alphas nHalf
    let xL ← sliceTo x nHalf
    let xR ← sliceFrom x nHalf
    let xStarL := xL.prod
    let xStarR := xR.prod
    let l ← multiExp fuel alphaL xL
    let r ← multiExp fuel alphaR xR
    return op (exp l xStarR) (exp r xStarL)

/-! ## The proof -/

/-- NI-PoKCR. -/
structure Pokcr (E : Type) where
  w : E
  deriving DecidableEq

namespace Pokcr

/-- Generates a proof. -/
def prove [GroupTrait E] (witnesses : List E) : Pokcr E :=
  ⟨witnesses.foldl op GroupTrait.id⟩

/-- Verifies a proof. -/
def verify [GroupTrait E] [DecidableEq E] (fuel : ℕ) (alphas : List E) (x : List ℤ)
    (proof : Pokcr E) : Exec Bool := do
  let y ← multiExp fuel alphas x
  let lhs := exp proof.w x.prod
  return lhs = y

end Pokcr

/-! ## What the halving computes -/

/-- The exponents of paired slices. -/
theorem exponent_zip {alphas : List E} {x : List ℤ} (len : alphas.length = x.length) :
    exponent (x.zip alphas) = x.prod := by
  unfold exponent
  rw [List.map_fst_zip len.ge]

variable {alphas : List E} {x : List ℤ}

/-- From two elements on the two halves are combined crosswise. -/
theorem multiExp_halves [GroupTrait E] {fuel n : ℕ} (many : 2 ≤ alphas.length)
    (half : alphas.length / 2 = n) (inside : n ≤ x.length) :
    multiExp (fuel + 1) alphas x = (do
      let l ← multiExp fuel (alphas.take n) (x.take n)
      let r ← multiExp fuel (alphas.drop n) (x.drop n)
      return op (exp l (x.drop n).prod) (exp r (x.take n).prod)) := by
  match alphas, many with
  | alpha :: beta :: rest, _ =>
    have fits : n ≤ (alpha :: beta :: rest).length := by omega
    rw [multiExp]
    · simp only [half, sliceTo_of_le fits, sliceFrom_of_le fits, sliceTo_of_le inside,
        sliceFrom_of_le inside, Exec.ok_bind]
    · simp

/-- The halving ends on non-empty lists of one length, in a result with every property single
elements have and halves keep. -/
theorem multiExp_induct [GroupTrait E] {P : List E → List ℤ → E → Prop}
    (single : ∀ alpha e, P [alpha] [e] alpha)
    (halves : ∀ al ar xl xr l r, P al xl l → P ar xr r →
      P (al ++ ar) (xl ++ xr) (op (exp l xr.prod) (exp r xl.prod)))
    (ne : alphas ≠ []) (len : alphas.length = x.length) :
    ∃ y, Returns (fun fuel => multiExp fuel alphas x) y ∧ P alphas x y := by
  refine halves_induct (P := fun alphas => ∀ x : List ℤ, alphas.length = x.length → ∃ y,
    Returns (fun fuel => multiExp fuel alphas x) y ∧ P alphas x y) ?_ ?_ ne x len
  · intro alpha x len
    obtain ⟨e, rfl⟩ := List.length_eq_one_iff.mp len.symm
    exact ⟨alpha, Returns.succ (Returns.of_eq fun _ => rfl), single alpha e⟩
  · intro alphas many left right x len
    obtain ⟨l, leftRuns, hl⟩ := left (x.take (alphas.length / 2)) (by simp [len])
    obtain ⟨r, rightRuns, hr⟩ := right (x.drop (alphas.length / 2)) (by simp [len])
    have joined := halves _ _ _ _ l r hl hr
    rw [List.take_append_drop, List.take_append_drop] at joined
    refine ⟨_, Returns.succ ?_, joined⟩
    simp only [multiExp_halves many rfl (show alphas.length / 2 ≤ x.length by omega)]
    exact leftRuns.bind (rightRuns.bind (Returns.of_eq fun _ => rfl))

variable [AbelianGroup E]

/-- The halving returns the product it is documented to compute. -/
theorem returns_multiExp (ne : alphas ≠ []) (len : alphas.length = x.length) :
    Returns (fun fuel => multiExp fuel alphas x) (cofactorPowers (x.zip alphas)) := by
  have computed : ∃ y, Returns (fun fuel => multiExp fuel alphas x) y ∧
      (alphas.length = x.length ∧ y = cofactorPowers (x.zip alphas)) := by
    refine multiExp_induct (P := fun (alphas : List E) (x : List ℤ) y =>
      alphas.length = x.length ∧ y = cofactorPowers (x.zip alphas)) ?_ ?_ ne len
    · intro alpha e
      exact ⟨rfl, (cofactorPowers_single e alpha).symm⟩
    · intro al ar xl xr l r left right
      obtain ⟨lenLeft, rfl⟩ := left
      obtain ⟨lenRight, rfl⟩ := right
      refine ⟨by rw [List.length_append, List.length_append, lenLeft, lenRight], ?_⟩
      rw [List.zip_append lenLeft.symm, cofactorPowers_append, exponent_zip lenLeft,
        exponent_zip lenRight]
      rfl
  obtain ⟨y, returns, -, rfl⟩ := computed
  exact returns

omit [AbelianGroup E] in
/-- The pairs by their index. -/
theorem zip_eq_ofFn (len : alphas.length = x.length) :
    x.zip alphas =
      List.ofFn fun i : Fin alphas.length => (x.get (i.cast len), alphas.get i) := by
  apply List.ext_getElem
  · rw [List.length_ofFn, List.length_zip, len, min_self]
  · intro i hi hi'
    simp

/-- On non-empty lists of one length the halving returns the product of all `alphas`, each
raised to all entries of `x` but its own, in whatever order the pairs are given. -/
theorem multiExp_closed_form (alphas : List E) (x : List ℤ) (ne : alphas ≠ [])
    (len : alphas.length = x.length) :
    Returns (fun fuel => multiExp fuel alphas x)
        (∏ i : Fin alphas.length,
          exp (alphas.get i) (∏ j ∈ Finset.univ.erase i, x.get (j.cast len))) ∧
      ∀ alphas' x', alphas'.length = x'.length → (alphas'.zip x').Perm (alphas.zip x) →
        ∀ y, Returns (fun fuel => multiExp fuel alphas' x') y ↔
          Returns (fun fuel => multiExp fuel alphas x) y := by
  have returns := returns_multiExp ne len
  constructor
  · rw [zip_eq_ofFn len, cofactorPowers_ofFn] at returns
    exact returns
  · intro alphas' x' len' perm y
    have ne' : alphas' ≠ [] := by
      have size := perm.length_eq
      rw [List.length_zip, List.length_zip, ← len, ← len', min_self, min_self] at size
      have positive := List.length_pos_iff.mpr ne
      exact List.ne_nil_of_length_pos (by omega)
    have swapped : (x'.zip alphas').Perm (x.zip alphas) := by
      rw [← List.zip_swap, ← List.zip_swap alphas]
      exact perm.map Prod.swap
    have permuted := returns_multiExp ne' len'
    rw [cofactorPowers_perm swapped] at permuted
    constructor
    · intro other
      rw [other.unique permuted]
      exact returns
    · intro other
      rw [other.unique returns]
      exact permuted

/-- Three pairs, one of the exponents negative and one zero. -/
theorem multiExp_closed_form_three :
    let alphas := [Cyclic.mk 2, ⟨3⟩, ⟨5⟩]
    Returns (fun fuel => multiExp fuel alphas [-3, 0, 7])
        (∏ i : Fin 3, exp (alphas.get i) (∏ j ∈ Finset.univ.erase i, [-3, 0, 7].get j)) ∧
      ∀ alphas' x', alphas'.length = x'.length →
        (alphas'.zip x').Perm (alphas.zip [-3, 0, 7]) →
          ∀ y, Returns (fun fuel => multiExp fuel alphas' x') y ↔
            Returns (fun fuel => multiExp fuel alphas [-3, 0, 7]) y :=
  multiExp_closed_form [Cyclic.mk 2, ⟨3⟩, ⟨5⟩] [-3, 0, 7] (by simp) rfl

/-! ## Completeness and soundness -/

namespace Pokcr

theorem prove_w (witnesses : List E) : (prove witnesses).w = witnesses.prod :=
  (List.prod_eq_foldl).symm

variable [DecidableEq E]

/-- The verifier returns on non-empty slices of the same length, and accepts a
power of `w` equal to the product of all cofactor powers. -/
theorem returns_verify (ne : alphas ≠ []) (len : alphas.length = x.length) (proof : Pokcr E) :
    Returns (fun fuel => verify fuel alphas x proof)
      (decide (proof.w ^ exponent (x.zip alphas) = cofactorPowers (x.zip alphas))) := by
  rw [exponent_zip len]
  exact (returns_multiExp ne len).bind (Returns.of_eq fun _ => rfl)

theorem returns_verify_true_iff {proof : Pokcr E} (ne : alphas ≠ [])
    (len : alphas.length = x.length) :
    Returns (fun fuel => verify fuel alphas x proof) true ↔
      proof.w ^ exponent (x.zip alphas) = cofactorPowers (x.zip alphas) := by
  constructor
  · intro accepted
    exact of_decide_eq_true ((returns_verify ne len proof).unique accepted)
  · intro power
    rw [← decide_eq_true power]
    exact returns_verify ne len proof

/-- Roots of all `alphas` make an accepted proof, and an accepted proof for
pairwise coprime exponents means that all `alphas` have roots. -/
theorem complete_and_sound (alphas : List E) (x : List ℤ) (ne : alphas ≠ [])
    (len : alphas.length = x.length) :
    (∀ ws : List E, ∀ same : ws.length = alphas.length,
        (∀ i, ∀ _ : i < alphas.length, exp ws[i] x[i] = alphas[i]) →
          Returns (fun fuel => verify fuel alphas x (prove ws)) true) ∧
      (x.Pairwise IsCoprime → ∀ proof, Returns (fun fuel => verify fuel alphas x proof) true →
        ∀ i, ∀ _ : i < alphas.length, ∃ w : E, exp w x[i] = alphas[i]) := by
  constructor
  · intro ws same roots
    rw [returns_verify_true_iff ne len, prove_w]
    have entries : x.zip alphas = (x.zip ws).map fun e => (e.1, e.2 ^ e.1) := by
      apply List.ext_getElem
      · simp [same]
      · intro i hi hi'
        rw [List.length_zip] at hi
        have root := roots i (by omega)
        rw [exp_eq_zpow] at root
        simp [root]
    rw [entries, cofactorPowers_of_roots, List.map_snd_zip (by omega), ← entries,
      exponent_zip len, exponent_zip (by omega)]
  · intro pairwise proof accepted i hi
    rw [returns_verify_true_iff ne len] at accepted
    have coprime : PairwiseCoprime (x.zip alphas) := by
      unfold PairwiseCoprime
      rw [← List.pairwise_map, List.map_fst_zip len.ge]
      exact pairwise
    have member : (x[i], alphas[i]) ∈ x.zip alphas := by
      rw [List.mem_iff_getElem]
      exact ⟨i, by rw [List.length_zip]; omega, by simp⟩
    exact exists_root coprime accepted member

/-- A square root and a cube root, proved together. -/
theorem complete_and_sound_two :
    Returns (fun fuel => verify fuel [Cyclic.mk 6, ⟨6⟩] [2, 3] (prove [⟨3⟩, ⟨2⟩])) true ∧
      ∃ w, exp w (3 : ℤ) = Cyclic.mk 6 := by
  obtain ⟨complete, sound⟩ := complete_and_sound [Cyclic.mk 6, ⟨6⟩] [2, 3] (by simp) rfl
  have accepted := complete [⟨3⟩, ⟨2⟩] rfl (by
    intro i hi
    match i, hi with
    | 0, _ => rfl
    | 1, _ => rfl)
  refine ⟨accepted, sound ?_ _ accepted 1 (by decide)⟩
  have coprime : IsCoprime (2 : ℤ) 3 := Int.isCoprime_iff_gcd_eq_one.mpr rfl
  exact List.pairwise_pair.mpr coprime

end Pokcr

end GroupAccumulator
