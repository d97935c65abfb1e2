import GroupAccumulator.Primality
import GroupAccumulator.UintValue
import Mathlib.FieldTheory.Finite.Basic

/-!
# The Miller-Rabin round, as computed

With `n - 1 = d * 2 ^ r` and `d` odd, the round accepts `n` when `2 ^ d` is one, or
one of the powers got from it by at most `r - 1` squarings is minus one
(`StrongProbablePrime`).  The loop stops early at a power that is one; all later
powers are one as well, so nothing is missed (`millerRabin_decides`).  A prime passes
because one has no square roots but one and minus one.
-/

namespace GroupAccumulator

namespace Primality

open Uint

/-- The strong probable prime condition to base two. -/
def StrongProbablePrime (n d r : ℕ) : Prop :=
  ((2 : ℕ) : ZMod n) ^ d = 1 ∨ ∃ i < r, ((2 : ℕ) : ZMod n) ^ (d * 2 ^ i) = -1

/-! ## Residues of one and minus one -/

section

variable {n c : ℕ}

theorem cast_eq_one_iff (large : 3 ≤ n) (hc : c < n) : (c : ZMod n) = 1 ↔ c = 1 := by
  rw [← Nat.cast_one, ZMod.natCast_eq_natCast_iff', Nat.mod_eq_of_lt hc,
    Nat.mod_eq_of_lt (by omega)]

theorem cast_eq_neg_one_iff (large : 3 ≤ n) (hc : c < n) : (c : ZMod n) = -1 ↔ c = n - 1 := by
  have top : ((n - 1 : ℕ) : ZMod n) = -1 := by
    rw [Nat.cast_sub (by omega), ZMod.natCast_self, Nat.cast_one, zero_sub]
  rw [← top, ZMod.natCast_eq_natCast_iff', Nat.mod_eq_of_lt hc, Nat.mod_eq_of_lt (by omega)]

/-- A root of minus one is a later square of a number that is not minus one. -/
theorem ne_zero_of_root (large : 3 ≤ n) (hc : c < n) (minus : ¬ c = n - 1) {i : ℕ}
    (root : (c : ZMod n) ^ 2 ^ i = -1) : i ≠ 0 := by
  intro zero
  rw [zero, pow_zero, pow_one] at root
  exact minus ((cast_eq_neg_one_iff large hc).mp root)

theorem one_ne_neg_one (large : 3 ≤ n) : (1 : ZMod n) ≠ -1 := by
  have apart := (cast_eq_neg_one_iff large (c := 1) (by omega)).not.mpr (by omega)
  rwa [Nat.cast_one] at apart

end

/-! ## The loop -/

section

variable (G : Gmp) {n : ℕ}

theorem subU64_one (hn : n < 2 ^ (64 * 4)) (large : 3 ≤ n) :
    subU64 G (ofNat 4 n) 1 = .ok (ofNat 4 (n - 1)) := by
  rw [subU64, fromU64_eq, UInt64.toNat_one, sub_ofNat G hn (by omega)]

/-- One round reads off the square. -/
theorem millerRabinLoop_succ (hn : n < 2 ^ (64 * 4)) (large : 3 ≤ n) {c : ℕ} (hc : c < n)
    (rounds : ℕ) :
    millerRabinLoop G (ofNat 4 n) (rounds + 1) (ofNat 4 c) =
      if c * c % n = 1 then .ok false
      else if c * c % n = n - 1 then .ok true
      else millerRabinLoop G (ofNat 4 n) rounds (ofNat 4 (c * c % n)) := by
  have narrow := hc.trans hn
  have reduced : c * c % n < 2 ^ (64 * 4) := (Nat.mod_lt _ (by omega)).trans hn
  have wide : c * c < 2 ^ (64 * 8) := mul_lt_wide narrow narrow
  rw [millerRabinLoop, mul_ofNat G narrow narrow, remU256_ofNat G wide hn (by omega),
    Exec.ok_bind, eqU64_ofNat reduced, UInt64.toNat_one, subU64_one G hn large, Exec.ok_bind]
  simp only [ofNat_inj reduced ((Nat.sub_le n 1).trans_lt hn), decide_eq_true_eq]
  rfl

/-- The loop looks for minus one among the squares. -/
theorem millerRabinLoop_spec (hn : n < 2 ^ (64 * 4)) (large : 3 ≤ n) {c : ℕ}
    (hc : c < n) (rounds : ℕ) :
    ∃ b, millerRabinLoop G (ofNat 4 n) rounds (ofNat 4 c) = .ok b ∧
      (b = true ↔ ∃ i, 1 ≤ i ∧ i ≤ rounds ∧ (c : ZMod n) ^ 2 ^ i = -1) := by
  induction rounds generalizing c with
  | zero =>
    refine ⟨false, rfl, fun never => (Bool.false_ne_true never).elim, ?_⟩
    intro root
    obtain ⟨i, low, high, -⟩ := root
    omega
  | succ rounds ih =>
    have lt : c * c % n < n := Nat.mod_lt _ (by omega)
    have square : ((c * c % n : ℕ) : ZMod n) = (c : ZMod n) ^ 2 := by
      rw [ZMod.natCast_mod, Nat.cast_mul, sq]
    have later (i : ℕ) : (c : ZMod n) ^ 2 ^ (i + 1) = ((c * c % n : ℕ) : ZMod n) ^ 2 ^ i := by
      rw [square, ← pow_mul, pow_succ']
    rw [millerRabinLoop_succ G hn large hc]
    split_ifs with one minus
    · refine ⟨false, rfl, fun never => (Bool.false_ne_true never).elim, ?_⟩
      intro root
      obtain ⟨i, low, -, root⟩ := root
      obtain ⟨i, rfl⟩ : ∃ j, i = j + 1 := ⟨i - 1, by omega⟩
      rw [later, one, Nat.cast_one, one_pow] at root
      exact (one_ne_neg_one large root).elim
    · refine ⟨true, rfl, fun _ => ⟨1, le_rfl, by omega, ?_⟩, fun _ => rfl⟩
      rw [pow_one, ← square]
      exact (cast_eq_neg_one_iff large lt).mpr minus
    · obtain ⟨b, run, found⟩ := ih lt
      refine ⟨b, run, found.trans ⟨?_, ?_⟩⟩
      · intro root
        obtain ⟨i, low, high, root⟩ := root
        exact ⟨i + 1, by omega, by omega, by rwa [later]⟩
      · intro root
        obtain ⟨i, low, high, root⟩ := root
        obtain ⟨i, rfl⟩ : ∃ j, i = j + 1 := ⟨i - 1, by omega⟩
        rw [later] at root
        have positive := ne_zero_of_root large lt minus root
        exact ⟨i, by omega, by omega, root⟩

/-- The odd part of `n - 1` and the number of its factors two. -/
theorem removeFactor_pred (hn : n < 2 ^ (64 * 4)) (odd : n % 2 = 1) (large : 3 ≤ n) :
    ∃ d r, removeFactor G (ofNat 4 (n - 1)) (ofNat 4 2) = .ok (ofNat 4 d, r) ∧
      n - 1 = d * 2 ^ r ∧ d % 2 = 1 ∧ 1 ≤ r ∧ d < 2 ^ (64 * 4) := by
  have below : n - 1 < 2 ^ (64 * 4) := (Nat.sub_le n 1).trans_lt hn
  obtain ⟨d, r, removed, removes⟩ := removeFactor_two G below
  obtain ⟨split, rest⟩ := removes (by omega)
  have positive : 1 ≤ r := by
    rw [Nat.one_le_iff_ne_zero]
    rintro rfl
    omega
  have hd : d < 2 ^ (64 * 4) := by
    have le : d ≤ n - 1 := by
      rw [split]
      exact Nat.le_mul_of_pos_right d (Nat.two_pow_pos r)
    exact le.trans_lt below
  exact ⟨d, r, removed, split, by omega, positive, hd⟩

/-- The round compares the power `2 ^ d` and leaves the rest to the loop. -/
theorem passesMillerRabinBase2_eq (hn : n < 2 ^ (64 * 4)) (large : 3 ≤ n) {d r : ℕ}
    (removed : removeFactor G (ofNat 4 (n - 1)) (ofNat 4 2) = .ok (ofNat 4 d, r))
    (hd : d < 2 ^ (64 * 4)) :
    passesMillerRabinBase2 G (ofNat 4 n) =
      if 2 ^ d % n = 1 then .ok true
      else if 2 ^ d % n = n - 1 then .ok true
      else millerRabinLoop G (ofNat 4 n) (r - 1) (ofNat 4 (2 ^ d % n)) := by
  have below : n - 1 < 2 ^ (64 * 4) := (Nat.sub_le n 1).trans_lt hn
  have narrow : 2 ^ d % n < 2 ^ (64 * 4) := (Nat.mod_lt _ (by omega)).trans hn
  rw [passesMillerRabinBase2, subU64_one G hn large, Exec.ok_bind]
  simp only [fromU64_eq, show (2 : UInt64).toNat = 2 from rfl, removed, Exec.ok_bind]
  rw [powMod_ofNat G (by norm_num) hd hn (by omega) (Or.inr (by omega)), Exec.ok_bind]
  simp only [eqU64_ofNat narrow, UInt64.toNat_one, ofNat_inj narrow below, decide_eq_true_eq]
  rfl

/-- The round decides the strong probable prime condition. -/
theorem passesMillerRabinBase2_spec (hn : n < 2 ^ (64 * 4)) (odd : n % 2 = 1) (large : 3 ≤ n) :
    ∃ d r b, n - 1 = d * 2 ^ r ∧ d % 2 = 1 ∧
      passesMillerRabinBase2 G (ofNat 4 n) = .ok b ∧ (b = true ↔ StrongProbablePrime n d r) := by
  obtain ⟨d, r, removed, split, odd', positive, hd⟩ := removeFactor_pred G hn odd large
  have power : ((2 ^ d % n : ℕ) : ZMod n) = ((2 : ℕ) : ZMod n) ^ d := by
    rw [ZMod.natCast_mod, Nat.cast_pow]
  have lt : 2 ^ d % n < n := Nat.mod_lt _ (by omega)
  refine ⟨d, r, ?_⟩
  rw [passesMillerRabinBase2_eq G hn large removed hd]
  unfold StrongProbablePrime
  simp only [pow_mul, ← power, cast_eq_one_iff large lt]
  split_ifs with one minus
  · exact ⟨true, split, odd', rfl, fun _ => Or.inl one, fun _ => rfl⟩
  · refine ⟨true, split, odd', rfl, fun _ => Or.inr ⟨0, positive, ?_⟩, fun _ => rfl⟩
    rw [pow_zero, pow_one]
    exact (cast_eq_neg_one_iff large lt).mpr minus
  · obtain ⟨b, loop, found⟩ := millerRabinLoop_spec G hn large lt (r - 1)
    refine ⟨b, split, odd', loop, found.trans ⟨?_, ?_⟩⟩
    · intro root
      obtain ⟨i, -, high, root⟩ := root
      exact Or.inr ⟨i, by omega, root⟩
    · intro either
      cases either with
      | inl same => exact absurd same one
      | inr later =>
        obtain ⟨i, high, root⟩ := later
        have first := ne_zero_of_root large lt minus root
        exact ⟨i, by omega, by omega, root⟩

/-- A number has one odd part. -/
theorem odd_part_unique {d e r s : ℕ} (hd : d % 2 = 1) (he : e % 2 = 1)
    (same : d * 2 ^ r = e * 2 ^ s) : d = e ∧ r = s := by
  induction r generalizing s with
  | zero =>
    cases s with
    | zero => exact ⟨by omega, rfl⟩
    | succ s =>
      rw [pow_zero, pow_succ, ← mul_assoc] at same
      omega
  | succ r ih =>
    cases s with
    | zero =>
      rw [pow_zero, pow_succ, ← mul_assoc] at same
      omega
    | succ s =>
      rw [pow_succ, pow_succ, ← mul_assoc, ← mul_assoc] at same
      obtain ⟨odd, count⟩ := ih (Nat.mul_right_cancel Nat.two_pos same)
      exact ⟨odd, by omega⟩

/-- For every odd `n` from three on the round returns, and accepts exactly the strong probable
primes to base two. -/
theorem millerRabin_decides (G : Gmp) (n : U256) (normal : Normal n) (odd : n.toNat % 2 = 1)
    (large : 3 ≤ n.toNat) (d r : ℕ) (split : n.toNat - 1 = d * 2 ^ r) (oddPart : d % 2 = 1) :
    ∃ b, passesMillerRabinBase2 G n = .ok b ∧
      (b = true ↔ StrongProbablePrime n.toNat d r) := by
  obtain ⟨e, s, b, split', oddPart', run, decides⟩ :=
    passesMillerRabinBase2_spec G n.toNat_lt odd large
  obtain ⟨rfl, rfl⟩ := odd_part_unique oddPart oddPart' (split.symm.trans split')
  rw [← normal.eq_ofNat] at run
  exact ⟨b, run, decides⟩

theorem millerRabin_decides_thirteen :
    ∃ b, passesMillerRabinBase2 Gmp.reference (ofNat 4 13) = .ok b ∧
      (b = true ↔ StrongProbablePrime (ofNat 4 13).toNat 3 2) :=
  millerRabin_decides Gmp.reference (ofNat 4 13) (normal_ofNat 4 13) (by decide) (by decide) 3 2
    (by decide) (by decide)

/-! ## Primes -/

/-- Without zero divisors, repeated square roots of one lead to one or minus one. -/
theorem eq_one_or_exists_pow_eq_neg_one {R : Type*} [Ring R] [NoZeroDivisors R] {x : R} {r : ℕ}
    (power : x ^ 2 ^ r = 1) : x = 1 ∨ ∃ i < r, x ^ 2 ^ i = -1 := by
  induction r with
  | zero =>
    rw [pow_zero, pow_one] at power
    exact Or.inl power
  | succ r ih =>
    rw [pow_succ, pow_mul] at power
    cases sq_eq_one_iff.mp power with
    | inl one =>
      rcases ih one with same | ⟨i, lt, root⟩
      · exact Or.inl same
      · exact Or.inr ⟨i, by omega, root⟩
    | inr minus => exact Or.inr ⟨r, by omega, minus⟩

theorem strongProbablePrime_of_prime {d r : ℕ} (prime : n.Prime) (large : 3 ≤ n)
    (split : n - 1 = d * 2 ^ r) : StrongProbablePrime n d r := by
  have fact : Fact n.Prime := ⟨prime⟩
  have nonzero : ((2 : ℕ) : ZMod n) ≠ 0 := by
    intro zero
    have divides := (ZMod.natCast_eq_zero_iff 2 n).mp zero
    exact absurd (Nat.le_of_dvd Nat.two_pos divides) (by omega)
  have fermat : (((2 : ℕ) : ZMod n) ^ d) ^ 2 ^ r = 1 := by
    rw [← pow_mul, ← split]
    exact ZMod.pow_card_sub_one_eq_one nonzero
  unfold StrongProbablePrime
  simp only [pow_mul]
  exact eq_one_or_exists_pow_eq_neg_one fermat

/-- Odd primes pass the round. -/
theorem passesMillerRabinBase2_of_prime (hn : n < 2 ^ (64 * 4)) (prime : n.Prime)
    (large : 3 ≤ n) : passesMillerRabinBase2 G (ofNat 4 n) = .ok true := by
  have odd : n % 2 = 1 := by
    have := prime.eq_two_or_odd
    omega
  obtain ⟨d, r, b, split, -, run, passes⟩ := passesMillerRabinBase2_spec G hn odd large
  rw [run, passes.mpr (strongProbablePrime_of_prime prime large split)]

end

end Primality

end GroupAccumulator
