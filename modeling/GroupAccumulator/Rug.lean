import GroupAccumulator.Outcome
import Mathlib.Data.Nat.Digits.Defs
import Mathlib.RingTheory.Coprime.Lemmas
import Mathlib.Tactic.LinearCombination

/-!
# Arbitrary-precision integers

The `rug::Integer` operations the crate uses, over `ℤ`.  Each division says how
it rounds and panics on a zero divisor.

The cofactors of `gcd_cofactors` are GMP's choice.  `Rug` carries the part the
crate relies on, a nonnegative gcd and a Bezout identity; `Rug.gmp` is the
choice `mpz_gcdext` documents.  `RugModular` does the same for modular inverses
and powers, whose values are the least nonnegative ones.
-/

namespace GroupAccumulator

/-! ## Divisions -/

/-- `div_rem_floor`: quotient rounded down, remainder with the divisor's sign. -/
def divRemFloor (a b : ℤ) : Exec (ℤ × ℤ) :=
  if b = 0 then .error .divisionByZero else .ok (a.fdiv b, a.fmod b)

/-- The operator `/`: quotient rounded towards zero. -/
def divTrunc (a b : ℤ) : Exec ℤ := if b = 0 then .error .divisionByZero else .ok (a.tdiv b)

/-- The operator `%`: remainder with the dividend's sign. -/
def remTrunc (a b : ℤ) : Exec ℤ := if b = 0 then .error .divisionByZero else .ok (a.tmod b)

/-- `div_rem_euc`: remainder never negative. -/
def divRemEuc (a b : ℤ) : Exec (ℤ × ℤ) :=
  if b = 0 then .error .divisionByZero else .ok (a / b, a % b)

theorem divRemFloor_of_ne_zero {a b : ℤ} (ne : b ≠ 0) :
    divRemFloor a b = .ok (a.fdiv b, a.fmod b) := if_neg ne

theorem divTrunc_of_ne_zero {a b : ℤ} (ne : b ≠ 0) : divTrunc a b = .ok (a.tdiv b) := if_neg ne

theorem remTrunc_of_ne_zero {a b : ℤ} (ne : b ≠ 0) : remTrunc a b = .ok (a.tmod b) := if_neg ne

theorem divRemEuc_of_ne_zero {a b : ℤ} (ne : b ≠ 0) : divRemEuc a b = .ok (a / b, a % b) :=
  if_neg ne

/-- An exact floor division. -/
theorem divRemFloor_of_mul_eq {a b q : ℤ} (ne : b ≠ 0) (exact : b * q = a) :
    divRemFloor a b = .ok (q, 0) := by
  rw [divRemFloor_of_ne_zero ne, ← exact, Int.mul_fdiv_cancel_left _ ne, Int.mul_fmod_right]

/-! ## Cofactors of a gcd -/

/-- What the crate relies on of `Integer::gcd_cofactors`. -/
structure Rug where
  gcdCofactors : ℤ → ℤ → ℤ × ℤ × ℤ
  gcd_eq : ∀ x y, (gcdCofactors x y).1 = (Int.gcd x y : ℤ)
  bezout : ∀ x y, (gcdCofactors x y).2.1 * x + (gcdCofactors x y).2.2 * y =
    (gcdCofactors x y).1

theorem Rug.bezout_of_gcd_eq_one (R : Rug) {x y : ℤ} (unit : (R.gcdCofactors x y).1 = 1) :
    (R.gcdCofactors x y).2.1 * x + (R.gcdCofactors x y).2.2 * y = 1 := by
  rw [R.bezout, unit]

theorem Rug.gcd_eq_one_iff (R : Rug) {x y : ℤ} :
    (R.gcdCofactors x y).1 = 1 ↔ IsCoprime x y := by
  rw [R.gcd_eq, Int.isCoprime_iff_gcd_eq_one]
  exact Nat.cast_eq_one

/-- The first cofactor `mpz_gcdext` documents: least in absolute value, with the
documented choice where that leaves two. -/
def gmpCofactor (x y : ℤ) : ℤ :=
  if x.natAbs = y.natAbs then 0
  else if y = 0 ∨ y.natAbs = 2 * Int.gcd x y then x.sign
  else if x = 0 ∨ x.natAbs = 2 * Int.gcd x y then (Int.gcd x y - y.sign * y) / x
  else Int.bmod (Int.gcdA x y) (y.natAbs / Int.gcd x y)

/-- `mpz_gcdext`: the second cofactor is what the first one leaves. -/
def gmpGcdext (x y : ℤ) : ℤ × ℤ × ℤ :=
  (Int.gcd x y, gmpCofactor x y,
    if x.natAbs = y.natAbs then y.sign else (Int.gcd x y - gmpCofactor x y * x) / y)

/-- When one argument is twice the gcd, the other is an odd multiple of it. -/
theorem dvd_gcd_sub_natAbs {x y : ℤ} (half : y.natAbs = 2 * Int.gcd x y) :
    y ∣ (Int.gcd x y : ℤ) - x.natAbs := by
  obtain ⟨k, hk⟩ : Int.gcd x y ∣ x.natAbs := Nat.gcd_dvd_left _ _
  have odd : k % 2 = 1 ∨ Int.gcd x y = 0 := by
    cases Nat.mod_two_eq_zero_or_one k with
    | inl even =>
      right
      rcases Nat.dvd_of_mod_eq_zero even with ⟨j, rfl⟩
      have both : 2 * Int.gcd x y ∣ Int.gcd x y :=
        Nat.dvd_gcd ⟨j, by rw [hk]; ring⟩ ⟨1, by rw [half, mul_one]⟩
      by_contra ne
      have := Nat.le_of_dvd (Nat.pos_of_ne_zero ne) both
      omega
    | inr odd => exact Or.inl odd
  rw [← Int.natAbs_dvd, half, hk]
  cases odd with
  | inl odd =>
    obtain ⟨j, rfl⟩ : ∃ j, k = 2 * j + 1 := ⟨k / 2, by omega⟩
    exact ⟨-j, by push_cast; ring⟩
  | inr zero =>
    rw [zero]
    simp

/-- The first cofactor leaves a multiple of the second argument. -/
theorem dvd_gcd_sub_gmpCofactor {x y : ℤ} (ne : x.natAbs ≠ y.natAbs) :
    y ∣ (Int.gcd x y : ℤ) - gmpCofactor x y * x := by
  unfold gmpCofactor
  rw [if_neg ne]
  split_ifs with left right
  · rw [Int.sign_mul_self_eq_natAbs]
    rcases left with rfl | half
    · simp
    · exact dvd_gcd_sub_natAbs half
  · have exact : x ∣ (Int.gcd x y : ℤ) - y.sign * y := by
      rw [Int.sign_mul_self_eq_natAbs]
      rcases right with rfl | half
      · simp
      · rw [Int.gcd_comm] at half ⊢
        exact dvd_gcd_sub_natAbs half
    rw [Int.ediv_mul_cancel exact, sub_sub_cancel]
    exact Dvd.intro_left _ rfl
  · obtain ⟨j, hj⟩ : ((y.natAbs / Int.gcd x y : ℕ) : ℤ) ∣
        Int.bmod (Int.gcdA x y) (y.natAbs / Int.gcd x y) - Int.gcdA x y := Int.dvd_bmod_sub_self
    obtain ⟨x', hx'⟩ : (Int.gcd x y : ℤ) ∣ x := Int.gcd_dvd_left ..
    have scaled : ((y.natAbs / Int.gcd x y : ℕ) : ℤ) * (Int.gcd x y : ℤ) = y.natAbs := by
      exact_mod_cast Nat.div_mul_cancel (Nat.gcd_dvd_right x.natAbs y.natAbs)
    have bez := Int.gcd_eq_gcd_ab x y
    rw [eq_add_of_sub_eq hj]
    generalize ((y.natAbs / Int.gcd x y : ℕ) : ℤ) = q at *
    have split : (Int.gcd x y : ℤ) - (q * j + Int.gcdA x y) * x =
        y * Int.gcdB x y - y.natAbs * (j * x') := by
      linear_combination bez - q * j * hx' - j * x' * scaled
    rw [split]
    refine dvd_sub (Dvd.intro _ rfl) ?_
    exact Dvd.dvd.mul_right (Int.dvd_natAbs.mpr dvd_rfl) _

theorem gmpGcdext_bezout (x y : ℤ) :
    (gmpGcdext x y).2.1 * x + (gmpGcdext x y).2.2 * y = (gmpGcdext x y).1 := by
  by_cases eq : x.natAbs = y.natAbs
  · have cofactor : gmpCofactor x y = 0 := if_pos eq
    have gcd : Int.gcd x y = y.natAbs := by
      rw [Int.gcd, eq, Nat.gcd_self]
    simp only [gmpGcdext, if_pos eq, cofactor, gcd, zero_mul, zero_add,
      Int.sign_mul_self_eq_natAbs]
  · simp only [gmpGcdext, if_neg eq]
    rw [Int.ediv_mul_cancel (dvd_gcd_sub_gmpCofactor eq)]
    ring

/-- One divided by anything larger leaves the cofactor one. -/
theorem gmpCofactor_one {y : ℤ} (positive : 0 < y) (ne : y ≠ 1) : gmpCofactor 1 y = 1 := by
  have apart : (1 : ℤ).natAbs ≠ y.natAbs := by omega
  have bez := Int.gcd_eq_gcd_ab 1 y
  rw [Int.one_gcd] at bez
  unfold gmpCofactor
  rw [Int.one_gcd, if_neg apart]
  split_ifs with left right
  · rfl
  · omega
  · have residue : Int.gcdA 1 y = 1 + (y.natAbs : ℤ) * (-Int.gcdB 1 y) := by
      rw [Int.natAbs_of_nonneg positive.le]
      push_cast at bez
      linear_combination -bez
    have one : (1 : ℤ) % (y.natAbs : ℤ) = 1 := Int.emod_eq_of_lt one_pos.le (by omega)
    rw [Nat.div_one, residue, Int.add_mul_bmod_self_left, Int.bmod_def, one]
    split_ifs <;> omega

/-- The second cofactor vanishes when the first argument divides on its own and
the second is no unit. -/
theorem gmpGcdext_snd_eq_zero_iff {x y : ℤ} (hx : 0 < x) (hy : 0 < y) (coprime : IsCoprime x y) :
    (gmpGcdext x y).2.2 = 0 ↔ x = 1 ∧ y ≠ 1 := by
  constructor
  · intro zero
    have bez := gmpGcdext_bezout x y
    have unit : (gmpGcdext x y).1 = 1 :=
      Nat.cast_eq_one.mpr (Int.isCoprime_iff_gcd_eq_one.mp coprime)
    rw [zero, zero_mul, add_zero, unit] at bez
    have one : x = 1 := Int.eq_one_of_mul_eq_one_left hx.le bez
    refine ⟨one, fun both => ?_⟩
    rw [one, both] at zero
    revert zero
    decide
  · intro one
    rcases one with ⟨rfl, ne⟩
    have apart : (1 : ℤ).natAbs ≠ y.natAbs := by omega
    simp only [gmpGcdext, if_neg apart, gmpCofactor_one hy ne, Int.one_gcd]
    norm_num

/-- `gcd_cofactors` as GMP computes it. -/
def Rug.gmp : Rug where
  gcdCofactors := gmpGcdext
  gcd_eq _ _ := rfl
  bezout := gmpGcdext_bezout

/-- Equal arguments take the second one with its sign. -/
example : Rug.gmp.gcdCofactors 1 1 = (1, 0, 1) := by decide

/-! ## Digits -/

/-- `len` little-endian bytes. -/
def toBytesLe : ℕ → ℕ → List UInt8
  | 0, _ => []
  | len + 1, n => UInt8.ofNat n :: toBytesLe len (n / 256)

/-- The number little-endian bytes stand for. -/
def ofBytesLe (bytes : List UInt8) : ℕ := Nat.ofDigits 256 (bytes.map UInt8.toNat)

/-- `Integer::write_digits` into `len` bytes, least significant first: the absolute
value, and a panic when it does not fit. -/
def writeDigits (len : ℕ) (n : ℤ) : Exec (List UInt8) :=
  if n.natAbs < 256 ^ len then .ok (toBytesLe len n.natAbs) else .error .bufferTooSmall

@[simp] theorem length_toBytesLe (len n : ℕ) : (toBytesLe len n).length = len := by
  induction len generalizing n with
  | zero => rfl
  | succ len ih => rw [toBytesLe, List.length_cons, ih]

theorem ofBytesLe_toBytesLe (len n : ℕ) : ofBytesLe (toBytesLe len n) = n % 256 ^ len := by
  induction len generalizing n with
  | zero => rw [pow_zero, Nat.mod_one]; rfl
  | succ len ih =>
    have step : ofBytesLe (toBytesLe (len + 1) n) =
        n % 256 + 256 * ofBytesLe (toBytesLe len (n / 256)) := by
      rw [ofBytesLe, toBytesLe, List.map_cons, Nat.ofDigits_cons, UInt8.toNat_ofNat']
      rfl
    rw [step, ih, pow_succ', Nat.mod_mul]

/-! ## Modular inverses and powers -/

/-- What the crate relies on of `Integer::invert` and `Integer::pow_mod`, for a
positive modulus. -/
structure RugModular where
  invert : ℤ → ℤ → Option ℤ
  powMod : ℤ → ℤ → ℤ → Option ℤ
  invert_eq_none : ∀ {x m : ℤ}, 0 < m → ¬ IsCoprime x m → invert x m = none
  invert_eq_some : ∀ {x m : ℤ}, 0 < m → IsCoprime x m →
    ∃ y, invert x m = some y ∧ 0 ≤ y ∧ y < m ∧ m ∣ x * y - 1
  powMod_natCast : ∀ {m : ℤ}, 0 < m → ∀ (x : ℤ) (n : ℕ), powMod x n m = some (x ^ n % m)
  /-- A negative exponent inverts the base. -/
  powMod_negSucc : ∀ {m : ℤ}, 0 < m → ∀ (x : ℤ) (n : ℕ),
    powMod x (Int.negSucc n) m = (invert x m).map fun y => y ^ (n + 1) % m

/-- `mpz_invert`. -/
def gmpInvert (x m : ℤ) : Option ℤ :=
  if Int.gcd x m = 1 then some (Int.gcdA x m % m) else none

/-- `mpz_powm`. -/
def gmpPowm (x : ℤ) : ℤ → ℤ → Option ℤ
  | .ofNat n, m => some (x ^ n % m)
  | .negSucc n, m => (gmpInvert x m).map fun y => y ^ (n + 1) % m

def RugModular.gmp : RugModular where
  invert := gmpInvert
  powMod := gmpPowm
  invert_eq_none _ factor := if_neg fun one => factor (Int.isCoprime_iff_gcd_eq_one.mpr one)
  invert_eq_some {x m} positive coprime := by
    have one := Int.isCoprime_iff_gcd_eq_one.mp coprime
    refine ⟨Int.gcdA x m % m, if_pos one, Int.emod_nonneg _ positive.ne',
      Int.emod_lt_of_pos _ positive, ?_⟩
    have bez := Int.gcd_eq_gcd_ab x m
    rw [one, Nat.cast_one] at bez
    have split := Int.emod_add_mul_ediv (Int.gcdA x m) m
    exact ⟨-(Int.gcdB x m) - x * (Int.gcdA x m / m), by linear_combination x * split - bez⟩
  powMod_natCast _ _ _ := rfl
  powMod_negSucc _ _ _ := rfl

end GroupAccumulator
