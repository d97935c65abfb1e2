import GroupAccumulator.Theory.CoprimeProducts
import Mathlib.Algebra.Group.Commute.Basic
import Mathlib.Tactic.Group
import Mathlib.Tactic.LinearCombination

/-!
# Joint roots in a commutative group

A list of pairs `(p, w)` offers `w` as a `p`-th root of one element `A`.  A joint
root takes every offer at once: its power by the whole product is `A`, and its
power by all exponents but one is the root offered for that one.

* `combine_pow`: two roots with coprime exponents combine into one, by Bezout
  cofactors attached crosswise.
* `JointRoot.merge`: joint roots of two lists with coprime products combine.
* `JointRoot.append`: conversely, powers of a joint root serve the parts.
* `JointRoot.zpow_ediv`: the powers but one, as quotients of the whole product.
* `JointRoot.unique`: with pairwise coprime exponents there is only one, also
  in a group with torsion.
-/

namespace Theory

variable {G : Type*}

/-! ## Exponents -/

/-- The product of all exponents. -/
def exponent (l : List (ℤ × G)) : ℤ := (l.map Prod.fst).prod

/-- The exponents are coprime in pairs. -/
def PairwiseCoprime (l : List (ℤ × G)) : Prop := l.Pairwise fun x y => IsCoprime x.1 y.1

variable {l r : List (ℤ × G)}

@[simp] theorem exponent_nil : exponent ([] : List (ℤ × G)) = 1 := rfl

@[simp] theorem exponent_cons (x : ℤ × G) (l : List (ℤ × G)) :
    exponent (x :: l) = x.1 * exponent l := by
  simp [exponent]

@[simp] theorem exponent_append (l r : List (ℤ × G)) :
    exponent (l ++ r) = exponent l * exponent r := by
  simp [exponent]

theorem exponent_middle_ediv {p : ℤ} (ne : p ≠ 0) (w : G) (l₁ l₂ : List (ℤ × G)) :
    exponent (l₁ ++ (p, w) :: l₂) / p = exponent l₁ * exponent l₂ := by
  rw [exponent_append, exponent_cons, mul_left_comm, Int.mul_ediv_cancel_left _ ne]

/-- Neighbouring segments of a pairwise coprime list have coprime products. -/
theorem PairwiseCoprime.exponents (pairwise : PairwiseCoprime (l ++ r)) :
    IsCoprime (exponent l) (exponent r) := by
  obtain ⟨-, -, cross⟩ := List.pairwise_append.mp pairwise
  exact isCoprime_prod_map cross

/-- Two pairwise coprime lists with coprime products append to one. -/
theorem PairwiseCoprime.append (left : PairwiseCoprime l) (right : PairwiseCoprime r)
    (coprime : IsCoprime (exponent l) (exponent r)) : PairwiseCoprime (l ++ r) := by
  refine List.pairwise_append.mpr ⟨left, right, fun x hx y hy => ?_⟩
  have divides {z : ℤ × G} {m : List (ℤ × G)} (hz : z ∈ m) : z.1 ∣ exponent m :=
    List.dvd_prod (List.mem_map_of_mem hz)
  exact (coprime.of_isCoprime_of_dvd_left (divides hx)).of_isCoprime_of_dvd_right (divides hy)

variable [CommGroup G]

/-! ## Two roots -/

/-- Attached crosswise, the cofactors give back both roots. -/
theorem combine_pow {u v : G} {x y a b : ℤ} (same : u ^ x = v ^ y) (bez : a * x + b * y = 1) :
    (u ^ b * v ^ a) ^ y = u ∧ (u ^ b * v ^ a) ^ x = v := by
  constructor
  · calc (u ^ b * v ^ a) ^ y = u ^ (b * y) * (v ^ y) ^ a := by
          rw [mul_zpow, ← zpow_mul, ← zpow_mul, ← zpow_mul, mul_comm y a]
      _ = u ^ (a * x + b * y) := by
          rw [← same, ← zpow_mul, ← zpow_add]
          ring_nf
      _ = u := by rw [bez, zpow_one]
  · calc (u ^ b * v ^ a) ^ x = (u ^ x) ^ b * v ^ (a * x) := by
          rw [mul_zpow, ← zpow_mul, ← zpow_mul, ← zpow_mul, mul_comm x b]
      _ = v ^ (a * x + b * y) := by
          rw [same, ← zpow_mul, ← zpow_add]
          ring_nf
      _ = v := by rw [bez, zpow_one]

/-- Two powers with coprime exponents determine the base. -/
theorem eq_one_of_coprime_zpow {v : G} {x y : ℤ} (coprime : IsCoprime x y) (hx : v ^ x = 1)
    (hy : v ^ y = 1) : v = 1 := by
  obtain ⟨a, b, bez⟩ := coprime
  calc v = v ^ (a * x + b * y) := by rw [bez, zpow_one]
    _ = (v ^ x) ^ a * (v ^ y) ^ b := by
        rw [zpow_add, ← zpow_mul, ← zpow_mul, mul_comm a, mul_comm b]
    _ = 1 := by rw [hx, hy, one_zpow, one_zpow, one_mul]

/-! ## Lists of roots -/

/-- `W` takes every root the list offers for `A`. -/
structure JointRoot (A : G) (l : List (ℤ × G)) (W : G) : Prop where
  power : W ^ exponent l = A
  cofactor : ∀ l₁ p w l₂, l = l₁ ++ (p, w) :: l₂ → W ^ (exponent l₁ * exponent l₂) = w

variable {A W W' U V : G}

theorem JointRoot.nil (A : G) : JointRoot A [] A := by
  refine ⟨by simp, ?_⟩
  intro l₁ p w l₂ split
  cases l₁ <;> cases split

theorem JointRoot.single {p : ℤ} {w : G} (root : w ^ p = A) : JointRoot A [(p, w)] w := by
  refine ⟨by simpa using root, ?_⟩
  intro l₁ p' w' l₂ split
  cases l₁ with
  | nil =>
    cases split
    simp
  | cons x l₁ =>
    have := congrArg List.length split
    simp at this

/-- The power by one list's exponent is a joint root of the other list. -/
theorem JointRoot.append (left : JointRoot A l (W ^ exponent r))
    (right : JointRoot A r (W ^ exponent l)) : JointRoot A (l ++ r) W := by
  refine ⟨?_, ?_⟩
  · rw [exponent_append, mul_comm (exponent l), zpow_mul, left.power]
  · intro l₁ p w l₂ split
    rcases List.append_eq_append_iff.mp split with ⟨m, rfl, rest⟩ | ⟨m, rfl, rest⟩
    · rw [exponent_append, mul_assoc, zpow_mul]
      exact right.cofactor m p w l₂ rest
    · cases m with
      | nil =>
        rw [List.append_nil] at right
        rw [zpow_mul, ← one_mul (exponent l₂)]
        exact right.cofactor [] p w l₂ rest.symm
      | cons x m =>
        rw [List.cons_append, List.cons.injEq] at rest
        obtain ⟨rfl, rfl⟩ := rest
        rw [exponent_append, ← mul_assoc, mul_comm _ (exponent r), zpow_mul]
        exact left.cofactor l₁ p w m rfl

/-- Joint roots of two lists with coprime products combine into one of the
appended list. -/
theorem JointRoot.merge {a b : ℤ} (left : JointRoot A l U) (right : JointRoot A r V)
    (bez : a * exponent l + b * exponent r = 1) : JointRoot A (l ++ r) (U ^ b * V ^ a) := by
  obtain ⟨toLeft, toRight⟩ := combine_pow (left.power.trans right.power.symm) bez
  apply JointRoot.append
  · rw [toLeft]
    exact left
  · rw [toRight]
    exact right

/-- Every offer is a root. -/
theorem JointRoot.root (joint : JointRoot A l W) {p : ℤ} {w : G} (member : (p, w) ∈ l) :
    w ^ p = A := by
  obtain ⟨l₁, l₂, rfl⟩ := List.append_of_mem member
  rw [← joint.cofactor l₁ p w l₂ rfl, ← joint.power, exponent_append, exponent_cons, ← zpow_mul]
  ring_nf

/-- All exponents but one are the whole product divided by that one. -/
theorem JointRoot.zpow_ediv (joint : JointRoot A l W) {p : ℤ} {w : G} (ne : p ≠ 0)
    (member : (p, w) ∈ l) : W ^ (exponent l / p) = w := by
  obtain ⟨l₁, l₂, rfl⟩ := List.append_of_mem member
  rw [exponent_middle_ediv ne, joint.cofactor l₁ p w l₂ rfl]

theorem JointRoot.of_zpow_ediv (power : W ^ exponent l = A) (ne : ∀ x ∈ l, x.1 ≠ 0)
    (rest : ∀ x ∈ l, W ^ (exponent l / x.1) = x.2) : JointRoot A l W := by
  refine ⟨power, ?_⟩
  intro l₁ p w l₂ split
  have member : (p, w) ∈ l := by
    rw [split]
    exact List.mem_append_cons_self
  rw [← exponent_middle_ediv (ne _ member) w, ← split]
  exact rest _ member

/-- The order of the offers does not matter. -/
theorem JointRoot.perm (joint : JointRoot A l W) (perm : l.Perm r) : JointRoot A r W := by
  refine ⟨?_, ?_⟩
  · rw [← joint.power]
    exact congrArg (W ^ ·) (perm.map Prod.fst).prod_eq.symm
  · intro r₁ p w r₂ split
    subst split
    obtain ⟨l₁, l₂, rfl⟩ := List.append_of_mem (perm.mem_iff.mpr List.mem_append_cons_self)
    have others : (l₁ ++ l₂).Perm (r₁ ++ r₂) :=
      (List.perm_middle.symm.trans (perm.trans List.perm_middle)).cons_inv
    rw [← joint.cofactor l₁ p w l₂ rfl, ← exponent_append, ← exponent_append]
    exact congrArg (W ^ ·) (others.map Prod.fst).prod_eq.symm

/-- An element whose powers by all exponents but one are the offers. -/
theorem JointRoot.of_map {ι : Type*} {p : ι → ℤ} {w : ι → G} (xs : List ι)
    (rest : ∀ x₁ e x₂, xs = x₁ ++ e :: x₂ → W ^ ((x₁.map p).prod * (x₂.map p).prod) = w e) :
    JointRoot (W ^ (xs.map p).prod) (xs.map fun e => (p e, w e)) W := by
  have exponents (ys : List ι) : exponent (ys.map fun e => (p e, w e)) = (ys.map p).prod := by
    unfold exponent
    rw [List.map_map]
    rfl
  refine ⟨by rw [exponents], ?_⟩
  intro l₁ q v l₂ split
  obtain ⟨x₁, ys, rfl, rfl, tail⟩ := List.map_eq_append_iff.mp split
  obtain ⟨e, x₂, rfl, entry, rfl⟩ := List.map_eq_cons_iff.mp tail
  cases entry
  rw [exponents, exponents]
  exact rest x₁ e x₂ rfl

/-- An element whose powers by all exponents but one are trivial is trivial. -/
theorem eq_one_of_cofactors {v : G} (pairwise : PairwiseCoprime l) (ne : l ≠ [])
    (trivial : ∀ l₁ x l₂, l = l₁ ++ x :: l₂ → v ^ (exponent l₁ * exponent l₂) = 1) : v = 1 := by
  induction l generalizing v with
  | nil => exact (ne rfl).elim
  | cons x l ih =>
    have head : v ^ exponent l = 1 := by simpa using trivial [] x l rfl
    cases l with
    | nil => simpa using head
    | cons y l =>
      obtain ⟨first, tail⟩ := List.pairwise_cons.mp pairwise
      have scaled : v ^ x.1 = 1 := by
        apply ih tail (List.cons_ne_nil y l)
        intro l₁ z l₂ split
        have := trivial (x :: l₁) z l₂ (by rw [split, List.cons_append])
        rwa [exponent_cons, mul_assoc, zpow_mul] at this
      exact eq_one_of_coprime_zpow (isCoprime_prod_map_right first) scaled head

/-- Pairwise coprime exponents leave room for one joint root only. -/
theorem JointRoot.unique (left : JointRoot A l W) (right : JointRoot A l W')
    (pairwise : PairwiseCoprime l) : W = W' := by
  by_cases ne : l = []
  · subst ne
    rw [← zpow_one W, ← zpow_one W']
    exact left.power.trans right.power.symm
  · apply mul_inv_eq_one.mp
    apply eq_one_of_cofactors pairwise ne
    intro l₁ x l₂ split
    rcases x with ⟨p, w⟩
    rw [mul_zpow, inv_zpow, left.cofactor l₁ p w l₂ split, right.cofactor l₁ p w l₂ split,
      mul_inv_cancel]

end Theory
