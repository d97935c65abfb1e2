import GroupAccumulator.Theory.Fueled
import GroupAccumulator.Outcome
import Mathlib.Algebra.Group.End
import Mathlib.Data.Fintype.Basic
import Mathlib.Tactic.Group

/-!
# The default exponentiation

The trait `Group` asks an implementation for the identity, the operation and the
inverse, and supplies `exp_` by repeated squaring.  `GroupFns` holds the three as
the implementation runs them: each may fault, and the operation may loop.

`Realizes` relates the values of an implementation to the elements of a group.
Where it holds, the default `exp_` returns, and what it returns is related to the
power in the group (`Realizes.exp_`), for every integer exponent.  The laws of
exponents carry over where a value is determined by what it stands for, in particular
where the values are themselves the group (`Lawful`); none of them needs an operation
that commutes.
-/

namespace GroupAccumulator

open Theory

/-- The functions an implementation of `Group` supplies. -/
structure GroupFns (E : Type) where
  id_ : Exec E
  op_ : ℕ → E → E → Exec E
  inv_ : E → Exec E

namespace GroupFns

variable {E : Type}

/-- The loop of the default `exp_`. -/
def expLoop (G : GroupFns E) : ℕ → E → E → ℤ → Exec E
  | 0, _, _, _ => .error .outOfFuel
  | fuel + 1, val, a, n =>
    if 0 < n then do
      let val ← (if n % 2 = 1 then G.op_ fuel val a else pure val)
      let a ← G.op_ fuel a a
      expLoop G fuel val a (n / 2)
    else
      return val

/-- The default `exp_`, by repeated squaring. -/
def exp_ (G : GroupFns E) (fuel : ℕ) (a : E) (n : ℤ) : Exec E :=
  if n < 0 then do
    let val ← G.id_
    let a ← G.inv_ a
    expLoop G fuel val a (-n)
  else do
    let val ← G.id_
    expLoop G fuel val a n

/-! ## Implementations of a group -/

variable {M : Type} [Group M]

/-- `Sim` relates the values of an implementation to the elements they stand for,
and the three functions stay within it. -/
structure Realizes (G : GroupFns E) (Sim : E → M → Prop) : Prop where
  id_ : ∃ e, G.id_ = .ok e ∧ Sim e 1
  op_ : ∀ {a b x y}, Sim a x → Sim b y →
    ∃ c, Returns (fun fuel => G.op_ fuel a b) c ∧ Sim c (x * y)
  inv_ : ∀ {a x}, Sim a x → ∃ b, G.inv_ a = .ok b ∧ Sim b x⁻¹

variable {G : GroupFns E} {Sim : E → M → Prop}

/-- One round keeps `val * a ^ n`. -/
theorem round_even (v x : M) {n : ℤ} (even : n % 2 ≠ 1) : v * (x * x) ^ (n / 2) = v * x ^ n := by
  rw [← zpow_two, ← zpow_mul, Int.mul_ediv_cancel' (by omega)]

theorem round_odd (v x : M) {n : ℤ} (odd : n % 2 = 1) :
    v * x * (x * x) ^ (n / 2) = v * x ^ n := by
  have split : n = 1 + 2 * (n / 2) := by omega
  calc v * x * (x * x) ^ (n / 2) = v * (x ^ (1 : ℤ) * x ^ (2 * (n / 2))) := by
        rw [← zpow_two, ← zpow_mul, zpow_one, mul_assoc]
    _ = v * x ^ n := by rw [← zpow_add, ← split]

theorem Realizes.expLoop (realizes : G.Realizes Sim) {n : ℤ} (nonneg : 0 ≤ n) {val a : E}
    {v x : M} (hv : Sim val v) (ha : Sim a x) :
    ∃ c, Returns (fun fuel => G.expLoop fuel val a n) c ∧ Sim c (v * x ^ n) := by
  induction hk : n.toNat using Nat.strong_induction_on generalizing n val a v x with
  | _ k ih =>
    rcases nonneg.eq_or_lt with rfl | positive
    · refine ⟨val, Returns.succ (Returns.of_eq fun fuel => rfl), ?_⟩
      rwa [zpow_zero, mul_one]
    · obtain ⟨square, squared, hsquare⟩ := realizes.op_ ha ha
      have half : 0 ≤ n / 2 ∧ (n / 2).toNat < k := by omega
      by_cases odd : n % 2 = 1
      · obtain ⟨next, multiplied, hnext⟩ := realizes.op_ hv ha
        obtain ⟨c, rest, hc⟩ := ih _ half.2 half.1 hnext hsquare rfl
        refine ⟨c, Returns.succ ?_, by rwa [round_odd v x odd] at hc⟩
        simp only [GroupFns.expLoop, if_pos positive, if_pos odd]
        exact multiplied.bind (squared.bind rest)
      · obtain ⟨c, rest, hc⟩ := ih _ half.2 half.1 hv hsquare rfl
        refine ⟨c, Returns.succ ?_, by rwa [round_even v x odd] at hc⟩
        simp only [GroupFns.expLoop, if_pos positive, if_neg odd]
        exact (Returns.of_eq fun _ => rfl).bind (squared.bind rest)

/-- The default `exp_` returns, and computes the power. -/
theorem Realizes.exp_ (realizes : G.Realizes Sim) {a : E} {x : M} (ha : Sim a x) (n : ℤ) :
    ∃ c, Returns (fun fuel => G.exp_ fuel a n) c ∧ Sim c (x ^ n) := by
  obtain ⟨e, id, he⟩ := realizes.id_
  by_cases negative : n < 0
  · obtain ⟨b, inverted, hb⟩ := realizes.inv_ ha
    obtain ⟨c, loop, hc⟩ := realizes.expLoop (n := -n) (by omega) he hb
    refine ⟨c, ?_, ?_⟩
    · simp only [GroupFns.exp_, if_pos negative, id, inverted]
      exact loop
    · rwa [one_mul, inv_zpow', neg_neg] at hc
  · obtain ⟨c, loop, hc⟩ := realizes.expLoop (n := n) (by omega) he ha
    refine ⟨c, ?_, ?_⟩
    · simp only [GroupFns.exp_, if_neg negative, id]
      exact loop
    · rwa [one_mul] at hc

/-! ## The power laws -/

/-- Sums of exponents, where a value is determined by what it stands for. -/
theorem Realizes.exp_add (realizes : G.Realizes Sim)
    (unique : ∀ {a b x}, Sim a x → Sim b x → a = b) {a : E} {x : M} (ha : Sim a x) (k n : ℤ) :
    ∃ p q r, Returns (fun fuel => G.exp_ fuel a k) p ∧ Returns (fun fuel => G.exp_ fuel a n) q ∧
      Returns (fun fuel => G.op_ fuel p q) r ∧ Returns (fun fuel => G.exp_ fuel a (k + n)) r := by
  obtain ⟨p, first, hp⟩ := realizes.exp_ ha k
  obtain ⟨q, second, hq⟩ := realizes.exp_ ha n
  obtain ⟨r, product, hr⟩ := realizes.op_ hp hq
  obtain ⟨s, whole, hs⟩ := realizes.exp_ ha (k + n)
  rw [zpow_add] at hs
  obtain rfl := unique hr hs
  exact ⟨p, q, r, first, second, product, whole⟩

/-- Powers of powers. -/
theorem Realizes.exp_mul (realizes : G.Realizes Sim)
    (unique : ∀ {a b x}, Sim a x → Sim b x → a = b) {a : E} {x : M} (ha : Sim a x) (k n : ℤ) :
    ∃ p r, Returns (fun fuel => G.exp_ fuel a k) p ∧ Returns (fun fuel => G.exp_ fuel p n) r ∧
      Returns (fun fuel => G.exp_ fuel a (k * n)) r := by
  obtain ⟨p, first, hp⟩ := realizes.exp_ ha k
  obtain ⟨r, second, hr⟩ := realizes.exp_ hp n
  obtain ⟨s, whole, hs⟩ := realizes.exp_ ha (k * n)
  rw [zpow_mul] at hs
  obtain rfl := unique hr hs
  exact ⟨p, r, first, second, whole⟩

/-- An implementation whose values are a group: the three functions return the
identity, the products and the inverses. -/
structure Lawful [Group E] (G : GroupFns E) : Prop where
  id_ : G.id_ = .ok 1
  op_ : ∀ a b, Returns (fun fuel => G.op_ fuel a b) (a * b)
  inv_ : ∀ a, G.inv_ a = .ok a⁻¹

theorem Lawful.realizes [Group E] (lawful : G.Lawful) : G.Realizes (Eq : E → E → Prop) where
  id_ := ⟨1, lawful.id_, rfl⟩
  op_ := by
    rintro a b _ _ rfl rfl
    exact ⟨a * b, lawful.op_ a b, rfl⟩
  inv_ := by
    rintro a _ rfl
    exact ⟨a⁻¹, lawful.inv_ a, rfl⟩

/-- In any group, commutative or not, the default `exp_` returns the integer power, the powers
of an inverse for negative exponents, and obeys both laws of exponents. -/
theorem exp_integer_power [Group E] (G : GroupFns E) (lawful : G.Lawful) (a : E) (k n : ℤ) :
    Returns (fun fuel => G.exp_ fuel a n) (a ^ n) ∧
      (∃ b, G.inv_ a = .ok b ∧ Returns (fun fuel => G.exp_ fuel b (-n)) (a ^ n)) ∧
      (∃ p q r, Returns (fun fuel => G.exp_ fuel a k) p ∧
        Returns (fun fuel => G.exp_ fuel a n) q ∧ Returns (fun fuel => G.op_ fuel p q) r ∧
        Returns (fun fuel => G.exp_ fuel a (k + n)) r) ∧
      ∃ p r, Returns (fun fuel => G.exp_ fuel a k) p ∧ Returns (fun fuel => G.exp_ fuel p n) r ∧
        Returns (fun fuel => G.exp_ fuel a (k * n)) r := by
  have unique : ∀ {a b x : E}, a = x → b = x → a = b := fun left right => left.trans right.symm
  refine ⟨?_, ⟨a⁻¹, lawful.inv_ a, ?_⟩, lawful.realizes.exp_add unique rfl k n,
    lawful.realizes.exp_mul unique rfl k n⟩
  · obtain ⟨c, returns, rfl⟩ := lawful.realizes.exp_ (a := a) rfl n
    exact returns
  · obtain ⟨c, returns, power⟩ := lawful.realizes.exp_ (a := a⁻¹) rfl (-n)
    rw [inv_zpow', neg_neg] at power
    rwa [power] at returns

end GroupFns

/-! ## The permutations of three points -/

namespace Sample

/-- A group that is not commutative, with functions that always return. -/
def permutations : GroupFns (Equiv.Perm (Fin 3)) where
  id_ := .ok 1
  op_ _ a b := .ok (a * b)
  inv_ a := .ok a⁻¹

def cycle : Equiv.Perm (Fin 3) := Equiv.swap 0 1 * Equiv.swap 1 2

end Sample

open Sample in
/-- The square of the inverse of a three-cycle is the cycle. -/
theorem GroupFns.exp_integer_power_cycle :
    Returns (fun fuel => permutations.exp_ fuel cycle (-2)) cycle ∧
      ∃ p r, Returns (fun fuel => permutations.exp_ fuel cycle 2) p ∧
        Returns (fun fuel => permutations.exp_ fuel p (-2)) r ∧
        Returns (fun fuel => permutations.exp_ fuel cycle (2 * -2)) r := by
  have lawful : permutations.Lawful :=
    ⟨rfl, fun _ _ => Returns.of_eq fun _ => rfl, fun _ => rfl⟩
  obtain ⟨power, -, -, iterated⟩ := GroupFns.exp_integer_power permutations lawful cycle 2 (-2)
  have turned : cycle ^ (-2 : ℤ) = cycle := by decide
  rw [turned] at power
  exact ⟨power, iterated⟩

end GroupAccumulator
