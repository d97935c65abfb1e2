import GroupAccumulator.GroupDefaults
import GroupAccumulator.Rug
import Mathlib.Data.ZMod.Basic
import Mathlib.GroupTheory.OrderOfElement

/-!
# The Ristretto group

The functions of `group/ristretto.rs`.  `Dalek` carries what the crate relies on of
`curve25519-dalek`: the points form a group of prime order, a scalar multiplies as
its residue modulo the order, and bytes are reduced to a scalar in little-endian
order.

`exp_` splits off copies of the largest 255-bit exponent and passes what is left
through 32 bytes.  For an exponent that is not negative this is the power.  The
bytes are those of the absolute value: a negative exponent multiplies by its
absolute value instead, or panics when that does not fit (`exp_agrees_iff`).
-/

namespace GroupAccumulator

open Theory

/-! ## The group -/

/-- What the crate relies on of `curve25519-dalek`. -/
structure Dalek (P : Type) [AddCommGroup P] where
  Scalar : Type
  order : ℕ
  mul : P → Scalar → P
  fromBytesModOrder : List UInt8 → Scalar
  residue : Scalar → ZMod order
  prime : order.Prime
  card_eq : Nat.card P = order
  mul_eq : ∀ x s, mul x s = (residue s).val • x
  residue_fromBytes : ∀ bytes, bytes.length = 32 →
    residue (fromBytesModOrder bytes) = (ofBytesLe bytes : ZMod order)

/-- A Ristretto group element, directly wrapping a Ristretto point. -/
structure RistrettoElem (P : Type) where
  point : P
  deriving DecidableEq

namespace Ristretto

def MAX_SAFE_EXPONENT : ℤ := 2 ^ 255 - 1

variable {P : Type} [AddCommGroup P]

def op_ (a b : RistrettoElem P) : RistrettoElem P := ⟨a.point + b.point⟩

def id_ : RistrettoElem P := ⟨0⟩

def inv_ (x : RistrettoElem P) : RistrettoElem P := ⟨-x.point⟩

variable (D : Dalek P)

/-- `MAX_SAFE_SCALAR`. -/
def maxSafeScalar : Exec D.Scalar := do
  let digits ← writeDigits 32 MAX_SAFE_EXPONENT
  return D.fromBytesModOrder digits

/-- The loop of `exp_` and what follows it. -/
def expLoop : ℕ → RistrettoElem P → RistrettoElem P → ℤ → Exec (RistrettoElem P)
  | 0, _, _, _ => .error .outOfFuel
  | fuel + 1, x, result, remaining =>
    if remaining > MAX_SAFE_EXPONENT then do
      let scalar ← maxSafeScalar D
      expLoop fuel x ⟨result.point + D.mul x.point scalar⟩ (remaining - MAX_SAFE_EXPONENT)
    else do
      let digits ← writeDigits 32 remaining
      let factor := D.fromBytesModOrder digits
      return ⟨result.point + D.mul x.point factor⟩

def exp_ (fuel : ℕ) (x : RistrettoElem P) (n : ℤ) : Exec (RistrettoElem P) :=
  expLoop D fuel x id_ n

/-- The functions `Ristretto` supplies. -/
def fns (P : Type) [AddCommGroup P] : GroupFns (RistrettoElem P) where
  id_ := .ok id_
  op_ _ a b := .ok (op_ a b)
  inv_ x := .ok (inv_ x)

/-! ## Multiplication by a scalar -/

/-- A number below `2 ^ 256` passes through its bytes. -/
theorem mul_fromBytes (x : P) {n : ℕ} (fits : n < 256 ^ 32) :
    D.mul x (D.fromBytesModOrder (toBytesLe 32 n)) = n • x := by
  rw [D.mul_eq, D.residue_fromBytes _ (length_toBytesLe 32 n), ofBytesLe_toBytesLe,
    Nat.mod_eq_of_lt fits, ZMod.val_natCast, ← D.card_eq, mod_natCard_nsmul]

theorem maxSafeExponent_pos : 0 < MAX_SAFE_EXPONENT := by decide

theorem maxSafeExponent_fits : MAX_SAFE_EXPONENT.natAbs < 256 ^ 32 := by decide

theorem maxSafeScalar_eq_ok :
    ∃ s, maxSafeScalar D = .ok s ∧ ∀ x, D.mul x s = MAX_SAFE_EXPONENT • x := by
  have fits := maxSafeExponent_fits
  refine ⟨D.fromBytesModOrder (toBytesLe 32 MAX_SAFE_EXPONENT.natAbs), ?_, fun x => ?_⟩
  · unfold maxSafeScalar writeDigits
    rw [if_pos fits]
    rfl
  · rw [mul_fromBytes D x fits]
    exact (natCast_zsmul x _).symm

/-- A multiple is zero when the point is or the order divides. -/
theorem zsmul_eq_zero_iff (x : P) (k : ℤ) : k • x = 0 ↔ x = 0 ∨ (D.order : ℤ) ∣ k := by
  have divides : addOrderOf x ∣ D.order := D.card_eq ▸ addOrderOf_dvd_natCard x
  rw [← addOrderOf_dvd_iff_zsmul_eq_zero]
  cases D.prime.eq_one_or_self_of_dvd _ divides with
  | inl one =>
    rw [one, AddMonoid.addOrderOf_eq_one_iff.mp one]
    simp
  | inr full =>
    rw [full, or_iff_right_of_imp]
    rintro rfl
    rw [addOrderOf_zero] at full
    exact absurd full.symm D.prime.ne_one

/-! ## Powers -/

variable {D}

/-- The last round writes the absolute value. -/
theorem expLoop_last {x r : RistrettoElem P} {n : ℤ} (small : n ≤ MAX_SAFE_EXPONENT)
    (fits : n.natAbs < 256 ^ 32) :
    Returns (fun fuel => expLoop D fuel x r n) ⟨r.point + n.natAbs • x.point⟩ := by
  refine Returns.succ (Returns.of_eq fun fuel => ?_)
  rw [expLoop, if_neg (not_lt.mpr small), writeDigits, if_pos fits, Exec.ok_bind]
  change Except.ok (RistrettoElem.mk (r.point + D.mul x.point _)) = _
  rw [mul_fromBytes D x.point fits]

/-- The rounds before it leave the power as it is. -/
theorem expLoop_of_nonneg {x r : RistrettoElem P} {n : ℤ} (nonneg : 0 ≤ n) :
    Returns (fun fuel => expLoop D fuel x r n) ⟨r.point + n • x.point⟩ := by
  induction hk : n.toNat using Nat.strong_induction_on generalizing n r with
  | _ k ih =>
    by_cases large : n > MAX_SAFE_EXPONENT
    · obtain ⟨s, scalar, multiplies⟩ := maxSafeScalar_eq_ok D
      have positive := maxSafeExponent_pos
      have rest := ih (n - MAX_SAFE_EXPONENT).toNat (by omega)
        (r := ⟨r.point + MAX_SAFE_EXPONENT • x.point⟩) (n := n - MAX_SAFE_EXPONENT) (by omega) rfl
      have total : r.point + MAX_SAFE_EXPONENT • x.point + (n - MAX_SAFE_EXPONENT) • x.point =
          r.point + n • x.point := by
        rw [add_assoc, ← add_zsmul, add_sub_cancel]
      rw [total] at rest
      refine Returns.succ ?_
      simp only [expLoop, if_pos large, scalar, Exec.ok_bind, multiplies]
      exact rest
    · have small : n ≤ MAX_SAFE_EXPONENT := not_lt.mp large
      have fits : n.natAbs < 256 ^ 32 := by
        have := maxSafeExponent_fits
        omega
      have last := expLoop_last (D := D) (x := x) (r := r) small fits
      rwa [← natCast_zsmul, Int.natAbs_of_nonneg nonneg] at last

/-- The default `exp_` computes the multiple. -/
theorem default_exp (x : RistrettoElem P) (n : ℤ) :
    Returns (fun fuel => (fns P).exp_ fuel x n) ⟨n • x.point⟩ := by
  have realizes : (fns P).Realizes fun e m => Multiplicative.ofAdd e.point = m := by
    refine ⟨⟨_, rfl, rfl⟩, ?_, ?_⟩
    · rintro a b - - rfl rfl
      exact ⟨_, Returns.of_eq fun _ => rfl, rfl⟩
    · rintro a - rfl
      exact ⟨_, rfl, rfl⟩
  obtain ⟨c, returns, power⟩ := realizes.exp_ (a := x) rfl n
  rcases c with ⟨c⟩
  obtain rfl : c = n • x.point := Multiplicative.ofAdd.injective power
  exact returns

/-- What does not fit 32 bytes panics. -/
theorem expLoop_overflow {x r : RistrettoElem P} {n : ℤ} (negative : n < 0)
    (long : ¬ n.natAbs < 256 ^ 32) (fuel : ℕ) :
    expLoop D (fuel + 1) x r n = .error .bufferTooSmall := by
  have small : ¬ n > MAX_SAFE_EXPONENT := by
    have := maxSafeExponent_pos
    omega
  rw [expLoop, if_neg small, writeDigits, if_neg long]
  rfl

/-- The two multiples a negative exponent gives are one when the point is the
identity or the order divides their difference. -/
theorem natAbs_nsmul_eq_iff (D : Dalek P) (x : RistrettoElem P) {n : ℤ} (negative : n < 0) :
    n.natAbs • x.point = n • x.point ↔ x = id_ ∨ (D.order : ℤ) ∣ 2 * n := by
  have point : x = id_ ↔ x.point = 0 := by
    rcases x with ⟨x⟩
    exact ⟨congrArg RistrettoElem.point, congrArg RistrettoElem.mk⟩
  have difference : n • x.point - n.natAbs • x.point = (2 * n) • x.point := by
    rw [← natCast_zsmul, Int.ofNat_natAbs_of_nonpos negative.le, sub_eq_add_neg,
      ← sub_zsmul]
    ring_nf
  rw [point, ← zsmul_eq_zero_iff D, ← difference, sub_eq_zero]
  exact eq_comm

/-- `exp_` returns, and what the default `exp_` returns. -/
def Agrees (D : Dalek P) (x : RistrettoElem P) (n : ℤ) : Prop :=
  ∃ y, Returns (fun fuel => exp_ D fuel x n) y ∧ Returns (fun fuel => (fns P).exp_ fuel x n) y

/-- Exponents that are not negative are right; a negative one is when its absolute
value fits 32 bytes and gives the same multiple of this point. -/
theorem exp_agrees_iff (D : Dalek P) (x : RistrettoElem P) (n : ℤ) :
    Agrees D x n ↔ 0 ≤ n ∨ (-2 ^ 256 < n ∧ (x = id_ ∨ (D.order : ℤ) ∣ 2 * n)) := by
  have default := default_exp x n
  cases le_or_gt 0 n with
  | inl nonneg =>
    refine ⟨fun _ => Or.inl nonneg, fun _ => ⟨_, ?_, default⟩⟩
    have power := expLoop_of_nonneg (D := D) (x := x) (r := id_) nonneg
    rwa [show (id_ : RistrettoElem P).point = 0 from rfl, zero_add] at power
  | inr negative =>
    rw [or_iff_right (not_le.mpr negative)]
    by_cases fits : n.natAbs < 256 ^ 32
    · have small : n ≤ MAX_SAFE_EXPONENT := negative.le.trans maxSafeExponent_pos.le
      have power := expLoop_last (D := D) (x := x) (r := id_) small fits
      rw [show (id_ : RistrettoElem P).point = 0 from rfl, zero_add] at power
      rw [and_iff_right (by omega), ← natAbs_nsmul_eq_iff D x negative]
      constructor
      · intro agrees
        obtain ⟨y, returns, same⟩ := agrees
        exact congrArg RistrettoElem.point
          ((power.unique returns).trans (same.unique default))
      · intro same
        refine ⟨_, power, ?_⟩
        rw [same]
        exact default
    · constructor
      · intro agrees
        obtain ⟨y, ⟨fuel, returns⟩, -⟩ := agrees
        have run := returns (fuel + 1) (Nat.le_succ fuel)
        change expLoop D (fuel + 1) x id_ n = _ at run
        rw [expLoop_overflow negative fits] at run
        cases run
      · intro within
        exact absurd within.1 (by omega)

/-! ## A sample group -/

/-- The group of order seven. -/
def sample : Dalek (ZMod 7) where
  Scalar := ZMod 7
  order := 7
  mul x s := s.val • x
  fromBytesModOrder bytes := ofBytesLe bytes
  residue s := s
  prime := Nat.prime_seven
  card_eq := Nat.card_zmod 7
  mul_eq _ _ := rfl
  residue_fromBytes _ _ := rfl

/-- The power by minus one is the point itself, where the default gives its
inverse; the power by `-2 ^ 256` panics. -/
theorem exp_neg_one_ne_inv :
    exp_ sample 1 ⟨1⟩ (-1) = .ok ⟨1⟩ ∧ (fns (ZMod 7)).exp_ 2 ⟨1⟩ (-1) = .ok ⟨6⟩ ∧
      ¬ Agrees sample ⟨1⟩ (-1) ∧ exp_ sample 1 ⟨1⟩ (-2 ^ 256) = .error .bufferTooSmall := by
  refine ⟨by decide, by decide, ?_, by decide⟩
  intro agrees
  obtain ⟨y, returns, same⟩ := agrees
  have power : Returns (fun fuel => exp_ sample fuel ⟨1⟩ (-1)) _ :=
    expLoop_last (by decide) (by decide)
  have eq := (power.unique returns).trans (same.unique (default_exp ⟨1⟩ (-1)))
  exact absurd eq (by decide)

end Ristretto

end GroupAccumulator
