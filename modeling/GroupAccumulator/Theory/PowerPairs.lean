import GroupAccumulator.Theory.JointRoots

/-!
# Elements with two prescribed powers

`PowerPair x y u v r` says that `r` has the `x`-th power `u` and the `y`-th power
`v`.  With coprime exponents there is at most one such element
(`PowerPair.unique`), and Bezout cofactors find it where the two powers agree
(`PowerPair.of_bezout`).  Pairs follow one another with the second exponents
multiplied (`PowerPair.trans`), and a power of the element takes a factor out of
the first exponent (`PowerPair.zpow`).
-/

namespace Theory

variable {G : Type*} [CommGroup G] {x y z n : ℤ} {u v t r s q : G}

/-- The two powers of `r`. -/
structure PowerPair (x y : ℤ) (u v r : G) : Prop where
  first : r ^ x = u
  second : r ^ y = v

/-- The two powers agree on the product of the exponents. -/
theorem PowerPair.compatible (pair : PowerPair x y u v r) : v ^ x = u ^ y := by
  rw [← pair.first, ← pair.second, ← zpow_mul, ← zpow_mul, mul_comm]

/-- Two elements with the same two coprime powers are equal. -/
theorem PowerPair.unique (coprime : IsCoprime x y) (left : PowerPair x y u v r)
    (right : PowerPair x y u v s) : r = s := by
  have quotient {n : ℤ} {w : G} (hr : r ^ n = w) (hs : s ^ n = w) : (r * s⁻¹) ^ n = 1 := by
    rw [mul_zpow, inv_zpow, hr, hs, mul_inv_cancel]
  exact mul_inv_eq_one.mp (eq_one_of_coprime_zpow coprime
    (quotient left.first right.first) (quotient left.second right.second))

/-- The cofactors of the exponents give an element with both powers. -/
theorem PowerPair.of_bezout {a b : ℤ} (bez : a * x + b * y = 1) (compatible : v ^ x = u ^ y) :
    PowerPair x y u v (v ^ b * u ^ a) := by
  obtain ⟨second, first⟩ := combine_pow compatible bez
  exact ⟨first, second⟩

/-- A pair that starts from a power of another one's element. -/
theorem PowerPair.trans {k l : ℤ} (before : PowerPair x y t (u ^ k) r)
    (after : PowerPair x z s (r ^ l) q) : PowerPair x (y * z) s (u ^ (k * l)) q := by
  refine ⟨after.first, ?_⟩
  calc q ^ (y * z) = (q ^ z) ^ y := by rw [mul_comm, zpow_mul]
    _ = (r ^ y) ^ l := by rw [after.second, ← zpow_mul, ← zpow_mul, mul_comm]
    _ = u ^ (k * l) := by rw [before.second, zpow_mul]

/-- A factor of the first exponent taken into the element. -/
theorem PowerPair.zpow (pair : PowerPair (x * n) y u v r) : PowerPair x y u (v ^ n) (r ^ n) := by
  refine ⟨?_, ?_⟩
  · rw [← zpow_mul, mul_comm n, pair.first]
  · rw [← pair.second, ← zpow_mul, ← zpow_mul, mul_comm]

/-- Scaled by `n`, the second exponent and the second power stay a pair. -/
theorem PowerPair.scale (pair : PowerPair x y u v r) (n : ℤ) :
    PowerPair x (y * n) u (v ^ n) r := by
  refine ⟨pair.first, ?_⟩
  rw [zpow_mul, pair.second]

end Theory
