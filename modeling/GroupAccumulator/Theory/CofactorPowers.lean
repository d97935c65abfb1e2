import GroupAccumulator.Theory.JointRoots
import Mathlib.Algebra.BigOperators.Fin

/-!
# Powers by the cofactors of a product

For a list of pairs `(x, a)` the product of all `a ^ (X / x)`, where `X` is the
product of all `x`; the order of the pairs does not matter (`cofactorPowers_perm`), and
no division is needed to say it (`cofactorPowers_ofFn`).  One such power takes the
place of one equation a pair: where every `a` is the `x`-th power of a `w`, it is the
`X`-th power of the product of the `w` (`cofactorPowers_of_roots`), and where the `x`
are coprime in pairs and it is an `X`-th power at all, every `a` is an `x`-th power
(`exists_root`).
-/

namespace Theory

variable {G : Type*} [CommGroup G]

/-- The product of `a ^ (X / x)` over the pairs `(x, a)`. -/
def cofactorPowers : List (ℤ × G) → G
  | [] => 1
  | (x, a) :: l => a ^ exponent l * cofactorPowers l ^ x

variable {l r : List (ℤ × G)} {x : ℤ} {a W : G}

@[simp] theorem cofactorPowers_nil : cofactorPowers ([] : List (ℤ × G)) = 1 := rfl

@[simp] theorem cofactorPowers_cons (x : ℤ) (a : G) (l : List (ℤ × G)) :
    cofactorPowers ((x, a) :: l) = a ^ exponent l * cofactorPowers l ^ x := rfl

theorem cofactorPowers_single (x : ℤ) (a : G) : cofactorPowers [(x, a)] = a := by simp

/-- Each part is raised to the exponent of the other. -/
theorem cofactorPowers_append (l r : List (ℤ × G)) :
    cofactorPowers (l ++ r) = cofactorPowers l ^ exponent r * cofactorPowers r ^ exponent l := by
  induction l with
  | nil => simp
  | cons entry l ih =>
    rcases entry with ⟨x, a⟩
    rw [List.cons_append, cofactorPowers_cons, cofactorPowers_cons, ih, exponent_append,
      exponent_cons, mul_zpow, mul_zpow, mul_assoc, ← zpow_mul, ← zpow_mul, ← zpow_mul, ← zpow_mul,
      mul_comm (exponent r) x, mul_comm (exponent l) x]

/-- The order of the pairs does not matter. -/
theorem cofactorPowers_perm (perm : l.Perm r) : cofactorPowers l = cofactorPowers r := by
  induction perm with
  | nil => rfl
  | cons entry perm ih =>
    have same : exponent _ = exponent _ := (perm.map Prod.fst).prod_eq
    rw [cofactorPowers, cofactorPowers, ih, same]
  | swap first second l =>
    simp only [cofactorPowers, exponent_cons, mul_zpow, ← zpow_mul]
    rw [mul_left_comm, mul_comm (exponent l) first.1, mul_comm (exponent l) second.1,
      mul_comm first.1 second.1, mul_comm first.1 (exponent l)]
  | trans _ _ first second => exact first.trans second

/-! ## The closed form -/

theorem prod_erase_zero {M : Type*} [CommMonoid M] {n : ℕ} (f : Fin (n + 1) → M) :
    ∏ j ∈ Finset.univ.erase 0, f j = ∏ j : Fin n, f j.succ := by
  rw [Fin.univ_succ, Finset.erase_cons, Finset.prod_map]
  rfl

theorem prod_erase_succ {M : Type*} [CommMonoid M] {n : ℕ} (f : Fin (n + 1) → M) (i : Fin n) :
    ∏ j ∈ Finset.univ.erase i.succ, f j = f 0 * ∏ j ∈ Finset.univ.erase i, f j.succ := by
  have image := Finset.map_erase ⟨Fin.succ, Fin.succ_injective n⟩ Finset.univ i
  rw [Fin.univ_succ, Finset.erase_cons_of_ne _ i.succ_ne_zero.symm, Finset.prod_cons]
  congr 1
  exact (congrArg (Finset.prod · f) image.symm).trans (Finset.prod_map ..)

omit [CommGroup G] in
theorem exponent_ofFn {n : ℕ} (x : Fin n → ℤ) (a : Fin n → G) :
    exponent (List.ofFn fun i => (x i, a i)) = ∏ i, x i := by
  unfold exponent
  rw [List.map_ofFn, List.prod_ofFn]
  rfl

/-- Every `a` is raised to the product of the other exponents. -/
theorem cofactorPowers_ofFn {n : ℕ} (x : Fin n → ℤ) (a : Fin n → G) :
    cofactorPowers (List.ofFn fun i => (x i, a i)) =
      ∏ i, a i ^ ∏ j ∈ Finset.univ.erase i, x j := by
  induction n with
  | zero => simp
  | succ n ih =>
    rw [List.ofFn_succ, cofactorPowers_cons, exponent_ofFn, ih, Fin.prod_univ_succ,
      prod_erase_zero, ← Finset.prod_zpow]
    congr 1
    apply Finset.prod_congr rfl
    intro i _
    rw [prod_erase_succ, mul_comm, zpow_mul]

/-! ## Roots -/

/-- Roots of all entries multiply to a root of the whole. -/
theorem cofactorPowers_of_roots (ws : List (ℤ × G)) :
    cofactorPowers (ws.map fun e => (e.1, e.2 ^ e.1)) = (ws.map Prod.snd).prod ^ exponent ws := by
  have exponents (ws : List (ℤ × G)) :
      exponent (ws.map fun e => (e.1, e.2 ^ e.1)) = exponent ws := by
    unfold exponent
    rw [List.map_map]
    rfl
  induction ws with
  | nil => simp
  | cons e ws ih =>
    rw [List.map_cons, cofactorPowers_cons, exponents, ih, exponent_cons, List.map_cons,
      List.prod_cons, mul_zpow, zpow_mul, mul_comm e.1, zpow_mul]

/-- All factors but one entry's own are powers by that entry's exponent. -/
theorem cofactorPowers_split (l r : List (ℤ × G)) (x : ℤ) (a : G) :
    ∃ v, cofactorPowers (l ++ (x, a) :: r) = a ^ (exponent l * exponent r) * v ^ x := by
  refine ⟨cofactorPowers l ^ exponent r * cofactorPowers r ^ exponent l, ?_⟩
  rw [cofactorPowers_append, exponent_cons, cofactorPowers_cons, mul_zpow, mul_zpow, ← zpow_mul,
    ← zpow_mul, ← zpow_mul, ← zpow_mul, mul_left_comm, mul_comm (exponent r),
    mul_comm x (exponent r), mul_comm x (exponent l)]

/-- An element one of whose powers is a power by a coprime exponent is one itself. -/
theorem exists_root_of_coprime {b : G} {n : ℤ} (coprime : IsCoprime n x) (same : a ^ n = b ^ x) :
    ∃ w, w ^ x = a := by
  obtain ⟨c, d, bez⟩ := coprime
  exact ⟨_, (combine_pow same bez).1⟩

/-- With pairwise coprime exponents, one root of the whole holds a root of every entry. -/
theorem exists_root (pairwise : PairwiseCoprime l) (power : W ^ exponent l = cofactorPowers l)
    (member : (x, a) ∈ l) : ∃ w, w ^ x = a := by
  obtain ⟨l₁, l₂, rfl⟩ := List.append_of_mem member
  obtain ⟨v, split⟩ := cofactorPowers_split l₁ l₂ x a
  obtain ⟨-, tail, cross⟩ := List.pairwise_append.mp pairwise
  have coprime : IsCoprime (exponent l₁ * exponent l₂) x := by
    apply IsCoprime.mul_left
    · exact (isCoprime_prod_map_right fun y hy =>
        (cross y hy (x, a) List.mem_cons_self).symm).symm
    · exact (isCoprime_prod_map_right (List.pairwise_cons.mp tail).1).symm
  apply exists_root_of_coprime (b := W ^ (exponent l₁ * exponent l₂) * v⁻¹) coprime
  calc a ^ (exponent l₁ * exponent l₂)
      = W ^ exponent (l₁ ++ (x, a) :: l₂) * (v ^ x)⁻¹ := by
        rw [power, split, mul_inv_cancel_right]
    _ = (W ^ (exponent l₁ * exponent l₂) * v⁻¹) ^ x := by
        rw [exponent_append, exponent_cons, mul_zpow, inv_zpow, ← zpow_mul, mul_left_comm,
          mul_comm x]

end Theory
