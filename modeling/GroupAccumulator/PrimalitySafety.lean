import GroupAccumulator.PrimalityLucas
import GroupAccumulator.PrimalityMillerRabin

/-!
# No panic but one

What trial division leaves is odd and no multiple of three.  So `n - 1` does not borrow,
and `n + 1` does not carry: the largest value, `2 ^ 256 - 1`, is a multiple of three.
One is left as well; whatever the round says of it, it is a perfect square.  For
everything else the two tests return whatever GMP does, but for the table of `D` values,
which may have none with symbol `-1` (`chooseD_cases`).
-/

namespace GroupAccumulator

open Theory

namespace Primality

open Uint

/-! ## The tables -/

theorem two_le_of_mem_small {p : UInt64} (member : p ∈ SMALL_PRIMES) : 2 ≤ p.toNat := by
  have all : (SMALL_PRIMES.all fun p => decide (2 ≤ p.toNat)) = true := by decide +kernel
  exact of_decide_eq_true (List.all_eq_true.mp all p member)

/-- Every `D` of the table is one modulo four and small. -/
theorem of_mem_table {D : ℤ} (member : D ∈ D_VALUES) : D % 4 = 1 ∧ D.natAbs ≤ 1003 := by
  have all : (D_VALUES.all fun D => decide (D % 4 = 1 ∧ D.natAbs ≤ 1003)) = true := by
    decide +kernel
  exact of_decide_eq_true (List.all_eq_true.mp all D member)

/-- `Q` is exact. -/
theorem parameters_of_mem {D : ℤ} (member : D ∈ D_VALUES) : D = 1 - 4 * (1 - D).tdiv 4 := by
  have residue := (of_mem_table member).1
  have exact := Int.mul_tdiv_cancel' (show (4 : ℤ) ∣ 1 - D by omega)
  omega

variable (G : Gmp) {n : ℕ}

/-- What is left by trial division. -/
theorem of_find_eq_none (hn : n < 2 ^ (64 * 4))
    (left : (SMALL_PRIMES.find? fun p => isDivisibleU G (ofNat 4 n) p) = none) :
    n % 2 = 1 ∧ n % 3 ≠ 0 := by
  have remains (p : UInt64) (member : p ∈ SMALL_PRIMES) : ¬ p.toNat ∣ n := by
    rw [← isDivisibleU_ofNat G hn]
    exact List.find?_eq_none.mp left p member
  have two : ¬ 2 ∣ n := remains 2 (by decide)
  have three : ¬ 3 ∣ n := remains 3 (by decide)
  omega

/-- The successor does not carry. -/
theorem succ_lt_of_mod_three (hn : n < 2 ^ (64 * 4)) (remainder : n % 3 ≠ 0) :
    n + 1 < 2 ^ (64 * 4) := by
  have top : (2 ^ (64 * 4) - 1) % 3 = 0 := by norm_num
  by_contra large
  obtain rfl : n = 2 ^ (64 * 4) - 1 := by omega
  exact remainder top

/-! ## Choosing a discriminant -/

/-- `choose_d` refuses squares, returns a `D` of the table with symbol `-1`, or panics where the
table has none. -/
theorem chooseD_cases (hn : n < 2 ^ (64 * 4)) (odd : n % 2 = 1) :
    (IsSquare n ∧ chooseD G (ofNat 4 n) = .ok (.error ⟨⟩)) ∨
      (∃ D ∈ D_VALUES, jacobiSym D n = -1 ∧ chooseD G (ofNat 4 n) = .ok (.ok D)) ∨
      (¬ IsSquare n ∧ (∀ D ∈ D_VALUES, jacobiSym D n ≠ -1) ∧
        chooseD G (ofNat 4 n) = .error .explicitPanic) := by
  have square := isPerfectSquare_ofNat G hn (show n ≠ 0 by omega)
  have symbol (d : ℤ) : jacobi G d (ofNat 4 n) = jacobiSym d n := jacobi_ofNat G hn odd d
  unfold chooseD
  by_cases perfect : IsSquare n
  · rw [if_pos (square.mpr perfect)]
    exact Or.inl ⟨perfect, rfl⟩
  · rw [if_neg (mt square.mp perfect)]
    simp only [symbol]
    right
    cases found : D_VALUES.find? fun d => decide (jacobiSym d n = -1) with
    | some D =>
      have negative : jacobiSym D n = -1 :=
        of_decide_eq_true (List.find?_some (p := fun d => decide (jacobiSym d n = -1)) found)
      exact Or.inl ⟨D, List.mem_of_find?_eq_some found, negative, rfl⟩
    | none =>
      refine Or.inr ⟨perfect, fun D member negative => ?_, rfl⟩
      exact List.find?_eq_none.mp found D member (decide_eq_true negative)

/-! ## The Lucas test -/

/-- With a `D` chosen the test compares the computed values, which are those of the sequences
at `n + 1`. -/
theorem passesLucas_eq_ok (hn : n < 2 ^ (64 * 4)) (odd : n % 2 = 1) (large : 3 ≤ n)
    (next : n + 1 < 2 ^ (64 * 4)) {D Q : ℤ} (member : D ∈ D_VALUES)
    (quotient : (1 - D).tdiv 4 = Q) (chosen : chooseD G (ofNat 4 n) = .ok (.ok D)) :
    ∃ u v w, Reduced n u (lucasU 1 (Q : ZMod n) (n + 1)) ∧
      Residue n v (lucasV 1 (Q : ZMod n) (n + 1)) ∧ Residue n w ((Q : ZMod n) ^ ((n + 1) / 2)) ∧
      passesLucas G (ofNat 4 n) = .ok (eqU64 u 0 && isCongruent G v (2 * Q) (ofNat 4 n) &&
        isCongruent G w (Q * jacobi G Q (ofNat 4 n)) (ofNat 4 n)) := by
  obtain ⟨-, small⟩ := of_mem_table member
  have parameters := parameters_of_mem member
  rw [quotient] at parameters
  have word : Q.natAbs < 2 ^ 64 := by omega
  obtain ⟨u, v, w, run, hu, hv, hw⟩ := computeLucasSequences_spec G hn odd large next
    (show 1 ≤ n + 1 by omega) word (by omega) parameters
  have succ : addU64 G (ofNat 4 n) 1 = .ok (ofNat 4 (n + 1)) := by
    rw [addU64, fromU64_eq, UInt64.toNat_one, add_ofNat G next]
  refine ⟨u, v, w, hu, hv, hw (by omega), ?_⟩
  unfold passesLucas
  simp only [chosen, quotient, succ, run, Exec.ok_bind]
  rfl

theorem passesLucas_of_square (refused : chooseD G (ofNat 4 n) = .ok (.error ⟨⟩)) :
    passesLucas G (ofNat 4 n) = .ok false := by
  unfold passesLucas
  rw [refused]
  rfl

theorem passesLucas_of_exhausted (panics : chooseD G (ofNat 4 n) = .error .explicitPanic) :
    passesLucas G (ofNat 4 n) = .error .explicitPanic := by
  unfold passesLucas
  rw [panics]
  rfl

/-! ## One -/

theorem subU64_one_one : subU64 G (ofNat 4 1) 1 = .ok (ofNat 4 0) := by
  rw [subU64, fromU64_eq, UInt64.toNat_one, sub_ofNat G (by norm_num) le_rfl]

/-- Modulo one the first square is zero, and zero is the predecessor of one. -/
theorem millerRabinLoop_one (rounds : ℕ) (x : U256) :
    ∃ b, millerRabinLoop G (ofNat 4 1) rounds x = .ok b := by
  cases rounds with
  | zero => exact ⟨false, rfl⟩
  | succ rounds =>
    have square : remU256 G (mul G x x) (ofNat 4 1) = .ok (ofNat 4 0) := by
      have normal : Normal (mul G x x) := rfl
      rw [normal.eq_ofNat, remU256_ofNat G (mul G x x).toNat_lt (by norm_num) one_ne_zero,
        Nat.mod_one]
    have notOne : eqU64 (ofNat 4 0) 1 = false := by
      rw [eqU64_ofNat (by norm_num)]
      rfl
    refine ⟨true, ?_⟩
    simp only [millerRabinLoop, square, subU64_one_one, notOne, Exec.ok_bind]
    rfl

/-- The round returns for one, whatever is left of zero without its factors and of the limbs
of a power modulo one. -/
theorem passesMillerRabinBase2_one_returns : ∃ b, passesMillerRabinBase2 G (ofNat 4 1) = .ok b := by
  obtain ⟨d, r, removed, -⟩ := removeFactor_two G (a := 0) (by norm_num)
  have modulus : (ofNat 4 1).asMpz ≠ 0 := by
    rw [asMpz_ofNat (by norm_num)]
    exact one_ne_zero
  obtain ⟨x, power⟩ : ∃ x, powMod G (ofNat 4 2) (ofNat 4 d) (ofNat 4 1) = .ok x :=
    ⟨_, if_neg modulus⟩
  rw [passesMillerRabinBase2, subU64_one_one, Exec.ok_bind]
  simp only [fromU64_eq, show (2 : UInt64).toNat = 2 from rfl, removed, power, Exec.ok_bind]
  split_ifs
  · exact ⟨true, rfl⟩
  · exact ⟨true, rfl⟩
  · exact millerRabinLoop_one G (r - 1) x

/-- Where GMP removes nothing from zero, one is rejected. -/
example : passesMillerRabinBase2 Gmp.reference (ofNat 4 1) = .ok false := by decide +kernel

/-! ## The whole test -/

/-- Past trial division the test returns, or ends where `choose_d` does. -/
theorem tests_return (hn : n < 2 ^ (64 * 4)) (odd : n % 2 = 1) (next : n + 1 < 2 ^ (64 * 4)) :
    (∃ b, passesMillerRabinBase2 G (ofNat 4 n) = .ok b) ∧
      ((∃ b, passesLucas G (ofNat 4 n) = .ok b) ∨
        (passesLucas G (ofNat 4 n) = .error .explicitPanic ∧
          chooseD G (ofNat 4 n) = .error .explicitPanic ∧ ¬ IsSquare n ∧
            ∀ D ∈ D_VALUES, jacobiSym D n ≠ -1)) := by
  cases (by omega : n = 1 ∨ 3 ≤ n) with
  | inl one =>
    subst one
    refine ⟨passesMillerRabinBase2_one_returns G, Or.inl ⟨false, ?_⟩⟩
    apply passesLucas_of_square
    have square : isPerfectSquare G (ofNat 4 1) = true :=
      (isPerfectSquare_ofNat G hn one_ne_zero).mpr ⟨1, rfl⟩
    exact if_pos square
  | inr large =>
    obtain ⟨-, -, b, -, -, round, -⟩ := passesMillerRabinBase2_spec G hn odd large
    refine ⟨⟨b, round⟩, ?_⟩
    rcases chooseD_cases G hn odd with
      ⟨-, refused⟩ | ⟨D, member, -, chosen⟩ | ⟨nonsquare, exhausted, panics⟩
    · exact Or.inl ⟨false, passesLucas_of_square G refused⟩
    · obtain ⟨u, v, w, -, -, -, run⟩ := passesLucas_eq_ok G hn odd large next member rfl chosen
      exact Or.inl ⟨_, run⟩
    · exact Or.inr ⟨passesLucas_of_exhausted G panics, panics, nonsquare, exhausted⟩

/-- A size of zero makes GMP see a multiple of two. -/
theorem isProbPrime_of_size_eq_zero {n : U256} (empty : n.size = 0) :
    isProbPrime G n = .ok false := by
  have value : n.asMpz = 0 := by rw [asMpz, empty, Int.sign_zero, zero_mul]
  have divisible : isDivisibleU G n 2 = true := by
    rw [isDivisibleU, value, decide_eq_true_eq, G.divisibleUiP_ne_zero]
    exact dvd_zero _
  have found : (SMALL_PRIMES.find? fun p => isDivisibleU G n p) = some 2 :=
    List.find?_cons_of_pos divisible
  have differs : eqU64 n 2 = false := by
    rw [eqU64, empty]
    rfl
  unfold isProbPrime
  rw [found]
  exact congrArg Except.ok differs

/-- Primality checking returns for every value there is, also for those `from_be_bytes` leaves
with size zero, unless the value is no square and no `D` of the table has symbol `-1`. -/
theorem isProbPrime_safe (G : Gmp) (n : U256) (value : Normal n ∨ n.size = 0) :
    (∃ b, isProbPrime G n = .ok b) ∨
      (isProbPrime G n = .error .explicitPanic ∧ chooseD G n = .error .explicitPanic ∧
        ¬ IsSquare n.toNat ∧ ∀ D ∈ D_VALUES, jacobiSym D n.toNat ≠ -1) := by
  cases value with
  | inr empty => exact Or.inl ⟨false, isProbPrime_of_size_eq_zero G empty⟩
  | inl normal =>
    have hn := n.toNat_lt
    rw [normal.eq_ofNat, toNat_ofNat hn]
    generalize n.toNat = m at hn
    unfold isProbPrime
    cases found : SMALL_PRIMES.find? fun p => isDivisibleU G (ofNat 4 m) p with
    | some p => exact Or.inl ⟨_, rfl⟩
    | none =>
      obtain ⟨odd, remainder⟩ := of_find_eq_none G hn found
      have next := succ_lt_of_mod_three hn remainder
      obtain ⟨⟨b, round⟩, lucas⟩ := tests_return G hn odd next
      simp only [round, Exec.ok_bind]
      cases b with
      | false => exact Or.inl ⟨false, rfl⟩
      | true =>
        cases lucas with
        | inl returns => exact Or.inl returns
        | inr panics => exact Or.inr panics

/-- The largest value. -/
theorem isProbPrime_safe_of_largest :
    let n : U256 := ofNat 4 (2 ^ 256 - 1)
    (∃ b, isProbPrime Gmp.reference n = .ok b) ∨
      (isProbPrime Gmp.reference n = .error .explicitPanic ∧
        chooseD Gmp.reference n = .error .explicitPanic ∧ ¬ IsSquare n.toNat ∧
          ∀ D ∈ D_VALUES, jacobiSym D n.toNat ≠ -1) :=
  isProbPrime_safe Gmp.reference (ofNat 4 (2 ^ 256 - 1)) (Or.inl (normal_ofNat 4 _))

end Primality

end GroupAccumulator
