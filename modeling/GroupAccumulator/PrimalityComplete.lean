import GroupAccumulator.PrimalitySafety
import Mathlib.Tactic.NormNum.LegendreSymbol
import Mathlib.Tactic.NormNum.Prime

/-!
# No prime is rejected

For an odd prime `n` and a `D` with Jacobi symbol `-1` the three conditions of the
Lucas test hold: the sequences at `n + 1` by the Frobenius of the quadratic extension,
the power of `Q` by Euler's criterion (`lucas_conditions`).  What is left is the table of
`D` values: where it holds no such `D`, `choose_d` panics.
-/

namespace GroupAccumulator

open Theory

namespace Primality

open Uint

/-! ## The Lucas conditions -/

section

variable {n : ℕ}

theorem odd_of_prime (prime : n.Prime) (large : 3 ≤ n) : n % 2 = 1 := by
  have := prime.eq_two_or_odd
  omega

/-- Euler's criterion, with the Jacobi symbol. -/
theorem pow_half_eq_jacobi (prime : n.Prime) (a : ℤ) :
    (a : ZMod n) ^ (n / 2) = (jacobiSym a n : ZMod n) := by
  have fact : Fact n.Prime := ⟨prime⟩
  rw [← jacobiSym.legendreSym.to_jacobiSym, legendreSym.eq_pow]

/-- The conditions the Lucas test asks for, with `D = 1 - 4 Q`. -/
theorem lucas_conditions (prime : n.Prime) (large : 3 ≤ n) {D Q : ℤ} (parameters : D = 1 - 4 * Q)
    (nonresidue : jacobiSym D n = -1) :
    lucasU 1 (Q : ZMod n) (n + 1) = 0 ∧ lucasV 1 (Q : ZMod n) (n + 1) = 2 * Q ∧
      (Q : ZMod n) ^ ((n + 1) / 2) = Q * jacobiSym Q n := by
  have fact : Fact n.Prime := ⟨prime⟩
  have odd := odd_of_prime prime large
  have power : ((1 : ZMod n) ^ 2 - 4 * Q) ^ (n / 2) = -1 := by
    have euler := pow_half_eq_jacobi prime D
    rw [nonresidue, parameters] at euler
    rw [one_pow]
    exact_mod_cast euler
  have half : (n + 1) / 2 = n / 2 + 1 := by omega
  refine ⟨lucasU_prime_succ 1 _ (by omega) power, lucasV_prime_succ 1 _ (by omega) power, ?_⟩
  rw [half, pow_succ', pow_half_eq_jacobi prime]

end

/-! ## The Lucas test -/

section

variable (G : Gmp) {n : ℕ}

/-- The congruence check compares residues. -/
theorem isCongruent_residue (hn : n < 2 ^ (64 * 4)) {x : U256} {r : ZMod n} (hx : Residue n x r)
    (i : ℤ) : isCongruent G x i (ofNat 4 n) = true ↔ r = i := by
  obtain ⟨c, hc, rfl, rfl⟩ := hx
  rw [isCongruent_ofNat G (hc.trans_lt hn) hn, ← Int.cast_natCast (R := ZMod n) c, eq_comm,
    ZMod.intCast_eq_intCast_iff_dvd_sub]

theorem eqU64_zero_of_reduced (hn : n < 2 ^ (64 * 4)) {x : U256} (hx : Reduced n x 0) :
    eqU64 x 0 = true := by
  obtain ⟨c, hc, rfl, zero⟩ := hx
  rw [eqU64_ofNat (hc.trans hn)]
  have divides := (ZMod.natCast_eq_zero_iff c n).mp zero
  exact decide_eq_true (Nat.eq_zero_of_dvd_of_lt divides hc)

/-- With a `D` chosen, an odd prime passes. -/
theorem passesLucas_of_chooseD (hn : n < 2 ^ (64 * 4)) (prime : n.Prime) (large : 3 ≤ n)
    (next : n + 1 < 2 ^ (64 * 4)) {D : ℤ} (member : D ∈ D_VALUES) (nonresidue : jacobiSym D n = -1)
    (chosen : chooseD G (ofNat 4 n) = .ok (.ok D)) :
    passesLucas G (ofNat 4 n) = .ok true := by
  have odd := odd_of_prime prime large
  have parameters := parameters_of_mem member
  generalize quotient : (1 - D).tdiv 4 = Q at parameters
  obtain ⟨u, v, w, hu, hv, hw, run⟩ := passesLucas_eq_ok G hn odd large next member quotient chosen
  obtain ⟨vanishes, trace, norm⟩ := lucas_conditions prime large parameters nonresidue
  rw [vanishes] at hu
  have first := eqU64_zero_of_reduced hn hu
  have second : isCongruent G v (2 * Q) (ofNat 4 n) = true := by
    rw [isCongruent_residue G hn hv, trace]
    push_cast
    rfl
  have third : isCongruent G w (Q * jacobi G Q (ofNat 4 n)) (ofNat 4 n) = true := by
    rw [isCongruent_residue G hn hw, norm, jacobi_ofNat G hn odd]
    push_cast
    rfl
  rw [run, first, second, third]
  rfl

/-! ## The whole test -/

/-- A small prime is only divided by itself. -/
theorem isProbPrime_of_prime_or_exhausted (hn : n < 2 ^ (64 * 4)) (prime : n.Prime) :
    isProbPrime G (ofNat 4 n) = .ok true ∨
      (isProbPrime G (ofNat 4 n) = .error .explicitPanic ∧
        ∀ D ∈ D_VALUES, jacobiSym D n ≠ -1) := by
  unfold isProbPrime
  cases found : SMALL_PRIMES.find? fun p => isDivisibleU G (ofNat 4 n) p with
  | some p =>
    have divides := (isDivisibleU_ofNat G hn p).mp (List.find?_some found)
    have several := two_le_of_mem_small (List.mem_of_find?_eq_some found)
    have same := (prime.eq_one_or_self_of_dvd _ divides).resolve_left (by omega)
    left
    simp only [eqU64_ofNat hn, decide_eq_true same.symm]
    rfl
  | none =>
    obtain ⟨odd, remainder⟩ := of_find_eq_none G hn found
    have next := succ_lt_of_mod_three hn remainder
    have large : 3 ≤ n := by
      have := prime.two_le
      omega
    have notSquare : ¬ IsSquare n := prime.prime.not_isSquare
    simp only [passesMillerRabinBase2_of_prime G hn prime large, Exec.ok_bind, if_true]
    rcases chooseD_cases G hn odd with
      ⟨square, -⟩ | ⟨D, member, nonresidue, chosen⟩ | ⟨-, exhausted, panics⟩
    · exact absurd square notSquare
    · exact Or.inl (passesLucas_of_chooseD G hn prime large next member nonresidue chosen)
    · exact Or.inr ⟨passesLucas_of_exhausted G panics, exhausted⟩

/-- What `choose_d` returns is in the table and has symbol `-1`. -/
theorem of_chooseD_eq_ok (hn : n < 2 ^ (64 * 4)) (odd : n % 2 = 1) {D : ℤ}
    (chosen : chooseD G (ofNat 4 n) = .ok (.ok D)) : D ∈ D_VALUES ∧ jacobiSym D n = -1 := by
  rcases chooseD_cases G hn odd with
    ⟨-, refused⟩ | ⟨D', member, negative, returned⟩ | ⟨-, -, panics⟩
  · cases refused.symm.trans chosen
  · cases returned.symm.trans chosen
    exact ⟨member, negative⟩
  · cases panics.symm.trans chosen

/-- The symbols of `5`, `-7` and `9` are one. -/
theorem chooseD_1229 : chooseD Gmp.reference (ofNat 4 1229) = .ok (.ok (-11)) := by
  have odd : 1229 % 2 = 1 := by norm_num
  have symbol (d : ℤ) : jacobi Gmp.reference d (ofNat 4 1229) = jacobiSym d 1229 :=
    jacobi_ofNat Gmp.reference (by norm_num) odd d
  have square : ¬ IsSquare 1229 := (show Nat.Prime 1229 by norm_num).prime.not_isSquare
  have first : D_VALUES = 5 :: -7 :: 9 :: -11 :: D_VALUES.drop 4 := rfl
  unfold chooseD
  rw [if_neg (mt (isPerfectSquare_ofNat Gmp.reference (by norm_num) (by norm_num)).mp square),
    first]
  simp only [symbol]
  rw [List.find?_cons_of_neg (by norm_num), List.find?_cons_of_neg (by norm_num),
    List.find?_cons_of_neg (by norm_num), List.find?_cons_of_pos (by norm_num)]
  rfl

/-- No prime is rejected; the test ends otherwise only where the table is exhausted.  An odd
prime passes the base-2 round, and for the `D` that is chosen all three Lucas conditions hold. -/
theorem isProbPrime_of_prime (G : Gmp) (n : U256) (normal : Normal n) (prime : n.toNat.Prime) :
    (isProbPrime G n = .ok true ∨
      (isProbPrime G n = .error .explicitPanic ∧
        ∀ D ∈ D_VALUES, jacobiSym D n.toNat ≠ -1)) ∧
    (n.toNat ≠ 2 → passesMillerRabinBase2 G n = .ok true ∧
      ∀ D Q : ℤ, chooseD G n = .ok (.ok D) → Q = (1 - D).tdiv 4 →
        lucasU 1 (Q : ZMod n.toNat) (n.toNat + 1) = 0 ∧
          lucasV 1 (Q : ZMod n.toNat) (n.toNat + 1) = 2 * Q ∧
          (Q : ZMod n.toNat) ^ ((n.toNat + 1) / 2) = Q * jacobiSym Q n.toNat) := by
  have hn := n.toNat_lt
  rw [normal.eq_ofNat, toNat_ofNat hn]
  generalize n.toNat = m at hn prime
  refine ⟨isProbPrime_of_prime_or_exhausted G hn prime, fun notTwo => ?_⟩
  have large : 3 ≤ m := by
    have := prime.two_le
    omega
  refine ⟨passesMillerRabinBase2_of_prime G hn prime large, ?_⟩
  intro D Q chosen quotient
  obtain ⟨member, nonresidue⟩ := of_chooseD_eq_ok G hn (odd_of_prime prime large) chosen
  subst quotient
  exact lucas_conditions prime large (parameters_of_mem member) nonresidue

/-- The first prime behind the table of small primes: it is accepted, and the Lucas conditions
hold for `D = -11`, the fourth entry of the table of `D` values. -/
theorem isProbPrime_of_prime_behind_table :
    let n : U256 := ofNat 4 1229
    isProbPrime Gmp.reference n = .ok true ∧ passesMillerRabinBase2 Gmp.reference n = .ok true ∧
      chooseD Gmp.reference n = .ok (.ok (-11)) ∧
        lucasU 1 ((3 : ℤ) : ZMod n.toNat) (n.toNat + 1) = 0 ∧
        lucasV 1 ((3 : ℤ) : ZMod n.toNat) (n.toNat + 1) = 2 * (3 : ℤ) ∧
        ((3 : ℤ) : ZMod n.toNat) ^ ((n.toNat + 1) / 2) = (3 : ℤ) * jacobiSym 3 n.toNat := by
  intro n
  have value : n.toNat = 1229 := toNat_ofNat (by norm_num)
  have prime : n.toNat.Prime := by
    rw [value]
    norm_num
  have nonresidue : jacobiSym (-11) n.toNat = -1 := by
    rw [value]
    norm_num
  have chosen : chooseD Gmp.reference n = .ok (.ok (-11)) := chooseD_1229
  obtain ⟨verdict, tests⟩ :=
    isProbPrime_of_prime Gmp.reference n (normal_ofNat 4 1229) prime
  have notTwo : n.toNat ≠ 2 := by
    rw [value]
    norm_num
  obtain ⟨round, conditions⟩ := tests notTwo
  refine ⟨?_, round, chosen, conditions (-11) 3 chosen (by decide)⟩
  rcases verdict with accepted | ⟨-, exhausted⟩
  · exact accepted
  · exact absurd nonresidue (exhausted (-11) (by decide))

end

end Primality

end GroupAccumulator
