import GroupAccumulator.Theory.Limbs
import Mathlib.NumberTheory.LegendreSymbol.JacobiSymbol
import Mathlib.Data.Nat.Digits.Defs
import Mathlib.Data.Nat.Sqrt

/-!
# GMP

The functions of GMP that `uint.rs` calls through `gmp-mpfr-sys`, with what their
manual says of them.  A limb vector `{p, n}` is passed as the number it holds, with
`n` where the result depends on it, and an `mpz_t` as its value.  A destination that
shares the limbs of a fixed-width integer comes back as its size and its limbs, those
above the size included.  A law holds under the conditions the manual puts on the
arguments; outside them nothing is known of the result.
-/

namespace GroupAccumulator

open Theory

structure Gmp where
  /-- Sum of two vectors of `n` limbs, and the carry. -/
  mpnAddN : ℕ → ℕ → ℕ → ℕ × ℕ
  /-- Difference of two vectors of `n` limbs, and the borrow. -/
  mpnSubN : ℕ → ℕ → ℕ → ℕ × ℕ
  /-- Product of two vectors of `n` limbs, in `2 n` limbs. -/
  mpnMulN : ℕ → ℕ → ℕ → ℕ
  /-- Quotient and remainder of a vector of `nn` limbs by one of `dn`. -/
  mpnTdivQr : ℕ → ℕ → ℕ → ℕ → ℕ × ℕ
  /-- A negative, zero or positive value as the first vector of `n` limbs is less
  than, equal to or greater than the second. -/
  mpnCmp : ℕ → ℕ → ℕ → ℤ
  mpnLshift : ℕ → ℕ → ℕ → ℕ
  mpnRshift : ℕ → ℕ → ℕ → ℕ
  /-- The digits of a vector in a base, most significant first. -/
  mpnGetStr : ℕ → ℕ → List UInt8
  /-- The number digits in a base stand for, most significant first, and the number of
  limbs written. -/
  mpnSetStr : List UInt8 → ℕ → ℕ × ℕ
  mpnPerfectSquareP : ℕ → ℤ
  /-- The size and the limbs left in a destination of zero limbs. -/
  mpzPowm : ℤ → ℤ → ℤ → ℤ × ℕ
  mpzJacobi : ℤ → ℤ → ℤ
  mpzCongruentP : ℤ → ℤ → ℤ → ℤ
  mpzDivisibleUiP : ℤ → ℕ → ℤ
  /-- The size and the limbs left in a destination of zero limbs, and how often the factor
  was removed, where GMP keeps to the limbs it was given. -/
  mpzRemove : ℤ → ℤ → Option ((ℤ × ℕ) × ℕ)
  add_eq : ∀ {n a b}, a < 2 ^ (64 * n) → b < 2 ^ (64 * n) →
    mpnAddN n a b = ((a + b) % 2 ^ (64 * n), (a + b) / 2 ^ (64 * n))
  sub_eq : ∀ {n a b}, a < 2 ^ (64 * n) → b < 2 ^ (64 * n) →
    mpnSubN n a b = ((2 ^ (64 * n) + a - b) % 2 ^ (64 * n), if a < b then 1 else 0)
  mul_eq : ∀ {n a b}, a < 2 ^ (64 * n) → b < 2 ^ (64 * n) → mpnMulN n a b = a * b
  /-- The divisor's highest limb must not be zero. -/
  tdivQr_eq : ∀ {nn dn a d}, dn ≤ nn → a < 2 ^ (64 * nn) → d ≠ 0 → limbCount d = dn →
    mpnTdivQr nn dn a d = (a / d, a % d)
  cmp_neg : ∀ {n a b}, a < 2 ^ (64 * n) → b < 2 ^ (64 * n) → (mpnCmp n a b < 0 ↔ a < b)
  cmp_zero : ∀ {n a b}, a < 2 ^ (64 * n) → b < 2 ^ (64 * n) → (mpnCmp n a b = 0 ↔ a = b)
  /-- The count is between 1 and 63. -/
  lshift_eq : ∀ {n a count}, a < 2 ^ (64 * n) → 1 ≤ count → count ≤ 63 →
    mpnLshift n a count = a * 2 ^ count % 2 ^ (64 * n)
  rshift_eq : ∀ {n a count}, a < 2 ^ (64 * n) → 1 ≤ count → count ≤ 63 →
    mpnRshift n a count = a / 2 ^ count
  /-- In base two there are no leading zeros. -/
  getStr_two : ∀ {a}, a ≠ 0 → mpnGetStr 2 a = (Nat.digits 2 a).reverse.map UInt8.ofNat
  setStr_256 : ∀ {str}, str ≠ [] →
    (mpnSetStr str 256).1 = Nat.ofDigits 256 (str.reverse.map UInt8.toNat) ∧
      (mpnSetStr str 256).1 < 2 ^ (64 * (mpnSetStr str 256).2)
  perfectSquareP_ne_zero : ∀ {a}, a ≠ 0 → (mpnPerfectSquareP a ≠ 0 ↔ IsSquare a)
  powm_size : ∀ {b m : ℤ} {e : ℕ}, m ≠ 0 →
    (mpzPowm b e m).1 = limbCount (b ^ e % |m|).natAbs
  /-- The limbs above the size stay zero.  The exponent zero modulo one is left out: GMP
  writes a limb one and gives it the size zero. -/
  powm_eq : ∀ {b m : ℤ} {e : ℕ}, m ≠ 0 → e ≠ 0 ∨ |m| ≠ 1 →
    (mpzPowm b e m).2 = (b ^ e % |m|).natAbs
  /-- The second argument is odd. -/
  jacobi_eq : ∀ {a : ℤ} {b : ℕ}, b % 2 = 1 → mpzJacobi a b = jacobiSym a b
  congruentP_ne_zero : ∀ {a c d : ℤ}, mpzCongruentP a c d ≠ 0 ↔ d ∣ a - c
  divisibleUiP_ne_zero : ∀ {a : ℤ} {d : ℕ}, mpzDivisibleUiP a d ≠ 0 ↔ (d : ℤ) ∣ a
  /-- Twos are shifted out in place.  For other even factors GMP swaps the destination for
  one of its own; what it does then is not known. -/
  remove_two : ∀ a : ℕ, ∃ d c : ℕ, mpzRemove a 2 = some (((limbCount d : ℤ), d), c) ∧
    (a ≠ 0 → a = d * 2 ^ c ∧ ¬ 2 ∣ d)

/-! ## A reference -/

/-- The factor `f` removed from `a` at most `fuel` times. -/
def removeAll : ℕ → ℕ → ℕ → ℕ × ℕ
  | 0, a, _ => (a, 0)
  | fuel + 1, a, f =>
    if a % f = 0 then
      let rest := removeAll fuel (a / f) f
      (rest.1, rest.2 + 1)
    else (a, 0)

theorem removeAll_spec {fuel a f : ℕ} (ne : a ≠ 0) (large : 2 ≤ f) (enough : a ≤ fuel) :
    a = (removeAll fuel a f).1 * f ^ (removeAll fuel a f).2 ∧ ¬ f ∣ (removeAll fuel a f).1 := by
  induction fuel generalizing a with
  | zero => omega
  | succ fuel ih =>
    rw [removeAll]
    split
    next divides =>
      obtain ⟨k, rfl⟩ := Nat.dvd_of_mod_eq_zero divides
      have positive : 0 < f := by omega
      have ne' : k ≠ 0 := by
        rintro rfl
        exact ne (mul_zero f)
      have shrinks : 2 * k ≤ f * k := Nat.mul_le_mul_right k large
      rw [Nat.mul_div_cancel_left k positive]
      obtain ⟨split, rest⟩ := ih ne' (by omega)
      refine ⟨?_, rest⟩
      calc f * k = f * ((removeAll fuel k f).1 * f ^ (removeAll fuel k f).2) := by rw [← split]
        _ = (removeAll fuel k f).1 * f ^ ((removeAll fuel k f).2 + 1) := by ring
    next remainder =>
      exact ⟨by simp, fun divides => remainder (Nat.mod_eq_zero_of_dvd divides)⟩

/-- A GMP that returns what the manual says also where the manual is silent, with the limb it
leaves behind a zero power modulo one. -/
def Gmp.reference : Gmp where
  mpnAddN n a b := ((a + b) % 2 ^ (64 * n), (a + b) / 2 ^ (64 * n))
  mpnSubN n a b := ((2 ^ (64 * n) + a - b) % 2 ^ (64 * n), if a < b then 1 else 0)
  mpnMulN _ a b := a * b
  mpnTdivQr _ _ a d := (a / d, a % d)
  mpnCmp _ a b := a - b
  mpnLshift n a count := a * 2 ^ count % 2 ^ (64 * n)
  mpnRshift _ a count := a / 2 ^ count
  mpnGetStr base a := (Nat.digits base a).reverse.map UInt8.ofNat
  mpnSetStr str base := (Nat.ofDigits base (str.reverse.map UInt8.toNat),
    limbCount (Nat.ofDigits base (str.reverse.map UInt8.toNat)))
  mpnPerfectSquareP a := if IsSquare a then 1 else 0
  mpzPowm b e m :=
    if e = 0 ∧ |m| = 1 then (0, 1)
    else (limbCount (b ^ e.toNat % |m|).natAbs, (b ^ e.toNat % |m|).natAbs)
  mpzJacobi a b := jacobiSym a b.toNat
  mpzCongruentP a c d := if d ∣ a - c then 1 else 0
  mpzDivisibleUiP a d := if (d : ℤ) ∣ a then 1 else 0
  mpzRemove a f :=
    if a = 0 ∨ f = 1 ∨ ¬ f ∣ a then some ((limbCount a.natAbs, a.natAbs), 0)
    else if f % 2 = 0 ∧ f ≠ 2 then none
    else
      let removed := removeAll a.toNat a.toNat f.toNat
      some ((limbCount removed.1, removed.1), removed.2)
  add_eq _ _ := rfl
  sub_eq _ _ := rfl
  mul_eq _ _ := rfl
  tdivQr_eq _ _ _ _ := rfl
  cmp_neg _ _ := by omega
  cmp_zero _ _ := by omega
  lshift_eq _ _ _ := rfl
  rshift_eq _ _ _ := rfl
  getStr_two _ := rfl
  setStr_256 _ := ⟨rfl, lt_pow_limbCount _⟩
  perfectSquareP_ne_zero _ := by simp
  powm_size {b m e} _ := by
    split
    next unit =>
      rw [unit.2, Int.emod_one]
      rfl
    next => rfl
  powm_eq {b m e} _ known := by
    rw [if_neg]
    · rfl
    · intro unit
      cases known with
      | inl exponent => exact exponent (by exact_mod_cast unit.1)
      | inr modulus => exact modulus unit.2
  jacobi_eq _ := rfl
  congruentP_ne_zero := by simp
  divisibleUiP_ne_zero := by simp
  remove_two a := by
    by_cases kept : (a : ℤ) = 0 ∨ (2 : ℤ) = 1 ∨ ¬ (2 : ℤ) ∣ a
    · refine ⟨a, 0, ?_, fun ne => ⟨by simp, ?_⟩⟩
      · rw [if_pos kept]
        rfl
      · rcases kept with zero | one | odd
        · exact absurd (by exact_mod_cast zero) ne
        · cases one
        · exact fun even => odd (by exact_mod_cast even)
    · refine ⟨(removeAll a a 2).1, (removeAll a a 2).2, ?_, fun ne => ?_⟩
      · rw [if_neg kept]
        rfl
      · exact removeAll_spec ne le_rfl le_rfl

end GroupAccumulator
