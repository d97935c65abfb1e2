import GroupAccumulator.PrimalityComplete

/-!
# What is accepted

`isProbPrime` returns `true` for the small primes and for the numbers without a small
factor that satisfy the Baillie-PSW conditions (`BailliePsw`): a strong probable prime
to base two, no square, and the Lucas conditions at `n + 1` for the first discriminant
of the table with Jacobi symbol `-1`.  Both directions hold whatever GMP does with the
limbs (`isProbPrime_decides`).  The small primes reach to 1223, so nothing composite is
accepted below the square of the next prime (`prime_of_isProbPrime`).
-/

namespace GroupAccumulator

open Theory

namespace Primality

open Uint

/-! ## The small primes -/

theorem lt_of_mem_small {p : UInt64} (member : p ∈ SMALL_PRIMES) : p.toNat < 35 ^ 2 := by
  have all : (SMALL_PRIMES.all fun p => decide (p.toNat < 35 ^ 2)) = true := by decide +kernel
  exact of_decide_eq_true (List.all_eq_true.mp all p member)

/-- No entry of the table has a smaller factor up to its square root. -/
theorem prime_of_mem_small {p : UInt64} (member : p ∈ SMALL_PRIMES) : p.toNat.Prime := by
  have all : (SMALL_PRIMES.all fun p => (List.range 35).all fun k =>
      decide (k < 2) || decide (k = p.toNat) || !decide (p.toNat % k = 0)) = true := by
    decide +kernel
  have trial := List.all_eq_true.mp all p member
  have two := two_le_of_mem_small member
  by_contra composite
  have least := Nat.minFac_prime (show p.toNat ≠ 1 by omega)
  have square : p.toNat.minFac ^ 2 ≤ p.toNat := Nat.minFac_sq_le_self (by omega) composite
  have small : p.toNat.minFac < 35 :=
    lt_of_pow_lt_pow_left₀ 2 (by norm_num) (square.trans_lt (lt_of_mem_small member))
  have row := List.all_eq_true.mp trial _ (List.mem_range.mpr small)
  rw [Bool.or_eq_true, Bool.or_eq_true, decide_eq_true_eq, decide_eq_true_eq, Bool.not_eq_true',
    decide_eq_false_iff_not] at row
  rcases row with (less | same) | apart
  · exact absurd least.two_le (by omega)
  · exact composite (same ▸ least)
  · exact apart (Nat.mod_eq_zero_of_dvd (Nat.minFac_dvd _))

/-- Every number from two to 1228 has a factor in the table. -/
theorem exists_small_factor {k : ℕ} (two : 2 ≤ k) (below : k < 1229) :
    ∃ p ∈ SMALL_PRIMES, p.toNat ∣ k := by
  have all : ((List.range 1229).all fun k => decide (k < 2) ||
      SMALL_PRIMES.any fun p => decide (k % p.toNat = 0)) = true := by decide +kernel
  have row := List.all_eq_true.mp all k (List.mem_range.mpr below)
  cases Bool.or_eq_true_iff.mp row with
  | inl less => exact absurd (of_decide_eq_true less) (by omega)
  | inr found =>
    obtain ⟨p, member, exact⟩ := List.any_eq_true.mp found
    exact ⟨p, member, Nat.dvd_of_mod_eq_zero (of_decide_eq_true exact)⟩

/-- Some entry of the table divides the number. -/
def HasSmallFactor (n : ℕ) : Prop := ∃ p ∈ SMALL_PRIMES, p.toNat ∣ n

/-- Without a small factor a number below the square of the next prime is prime. -/
theorem prime_of_no_small_factor {n : ℕ} (large : 2 ≤ n) (below : n < 1229 ^ 2)
    (remains : ¬ HasSmallFactor n) : n.Prime := by
  by_contra composite
  have square : n.minFac ^ 2 ≤ n := Nat.minFac_sq_le_self (by omega) composite
  have small : n.minFac < 1229 := lt_of_pow_lt_pow_left₀ 2 (by norm_num) (square.trans_lt below)
  obtain ⟨p, member, divides⟩ :=
    exists_small_factor (Nat.minFac_prime (by omega)).two_le small
  exact remains ⟨p, member, divides.trans (Nat.minFac_dvd n)⟩

/-! ## The conditions -/

/-- The first discriminant of the table with Jacobi symbol `-1`. -/
def firstD (n : ℕ) : Option ℤ := D_VALUES.find? fun D => jacobiSym D n = -1

/-- `n` is a strong probable prime to base two. -/
def PassesBaseTwo (n : ℕ) : Prop :=
  ∃ d r, n - 1 = d * 2 ^ r ∧ d % 2 = 1 ∧ StrongProbablePrime n d r

/-- The conditions on the Lucas sequences at `n + 1` that belong to a discriminant. -/
def LucasConditions (n : ℕ) (D : ℤ) : Prop :=
  let Q := (1 - D).tdiv 4
  lucasU 1 (Q : ZMod n) (n + 1) = 0 ∧ lucasV 1 (Q : ZMod n) (n + 1) = (2 * Q : ℤ) ∧
    (Q : ZMod n) ^ ((n + 1) / 2) = (Q * jacobiSym Q n : ℤ)

/-- What the two tests together ask for. -/
structure BailliePsw (n : ℕ) : Prop where
  base : PassesBaseTwo n
  nonsquare : ¬ IsSquare n
  lucas : ∃ D, firstD n = some D ∧ LucasConditions n D

/-! ## The two tests -/

section

variable (G : Gmp) {n : ℕ}

theorem passesMillerRabinBase2_decides (hn : n < 2 ^ (64 * 4)) (odd : n % 2 = 1) (large : 3 ≤ n) :
    ∃ b, passesMillerRabinBase2 G (ofNat 4 n) = .ok b ∧ (b = true ↔ PassesBaseTwo n) := by
  obtain ⟨d, r, b, split, oddPart, run, decides⟩ := passesMillerRabinBase2_spec G hn odd large
  refine ⟨b, run, decides.trans ⟨fun strong => ⟨d, r, split, oddPart, strong⟩, ?_⟩⟩
  intro h
  obtain ⟨e, s, split', oddPart', strong⟩ := h
  obtain ⟨rfl, rfl⟩ := odd_part_unique oddPart oddPart' (split.symm.trans split')
  exact strong

theorem firstD_eq_none_iff : firstD n = none ↔ ∀ D ∈ D_VALUES, jacobiSym D n ≠ -1 := by
  simp only [firstD, List.find?_eq_none, decide_eq_true_eq, ne_eq]

/-- Away from squares `choose_d` takes the first discriminant, and panics where there is none. -/
theorem chooseD_of_nonsquare (hn : n < 2 ^ (64 * 4)) (odd : n % 2 = 1)
    (nonsquare : ¬ IsSquare n) :
    chooseD G (ofNat 4 n) = match firstD n with
      | some D => .ok (.ok D)
      | none => .error .explicitPanic := by
  have square := isPerfectSquare_ofNat G hn (show n ≠ 0 by omega)
  have symbol (d : ℤ) : jacobi G d (ofNat 4 n) = jacobiSym d n := jacobi_ofNat G hn odd d
  unfold chooseD
  rw [if_neg (mt square.mp nonsquare)]
  simp only [symbol]
  rfl

theorem chooseD_of_square (hn : n < 2 ^ (64 * 4)) (odd : n % 2 = 1) (square : IsSquare n) :
    chooseD G (ofNat 4 n) = .ok (.error ⟨⟩) :=
  if_pos ((isPerfectSquare_ofNat G hn (show n ≠ 0 by omega)).mpr square)

theorem eqU64_zero_iff_of_reduced (hn : n < 2 ^ (64 * 4)) {x : U256} {r : ZMod n}
    (hx : Reduced n x r) : eqU64 x 0 = true ↔ r = 0 := by
  constructor
  · intro zero
    obtain ⟨c, hc, rfl, rfl⟩ := hx
    rw [eqU64_ofNat (hc.trans hn), decide_eq_true_eq] at zero
    rw [zero]
    exact Nat.cast_zero
  · rintro rfl
    exact eqU64_zero_of_reduced hn hx

/-- With a discriminant the Lucas test decides its conditions. -/
theorem passesLucas_decides (hn : n < 2 ^ (64 * 4)) (odd : n % 2 = 1) (large : 3 ≤ n)
    (next : n + 1 < 2 ^ (64 * 4)) (nonsquare : ¬ IsSquare n) {D : ℤ} (first : firstD n = some D) :
    ∃ b, passesLucas G (ofNat 4 n) = .ok b ∧ (b = true ↔ LucasConditions n D) := by
  have chosen := chooseD_of_nonsquare G hn odd nonsquare
  rw [first] at chosen
  obtain ⟨u, v, w, hu, hv, hw, run⟩ :=
    passesLucas_eq_ok G hn odd large next (List.mem_of_find?_eq_some first) rfl chosen
  refine ⟨_, run, ?_⟩
  rw [Bool.and_eq_true, Bool.and_eq_true, eqU64_zero_iff_of_reduced hn hu,
    isCongruent_residue G hn hv, isCongruent_residue G hn hw, jacobi_ofNat G hn odd, and_assoc]
  rfl

/-! ## The whole test -/

/-- Trial division: a number with a small factor is accepted when it is that factor. -/
theorem isProbPrime_of_small_factor (hn : n < 2 ^ (64 * 4)) (small : HasSmallFactor n) :
    ∃ b, isProbPrime G (ofNat 4 n) = .ok b ∧ (b = true ↔ ∃ p ∈ SMALL_PRIMES, n = p.toNat) := by
  unfold isProbPrime
  cases found : SMALL_PRIMES.find? fun p => isDivisibleU G (ofNat 4 n) p with
  | none =>
    obtain ⟨p, member, divides⟩ := small
    have refused := List.find?_eq_none.mp found p member
    rw [isDivisibleU_ofNat G hn] at refused
    exact (refused divides).elim
  | some p =>
    have member := List.mem_of_find?_eq_some found
    have divides := (isDivisibleU_ofNat G hn p).mp (List.find?_some found)
    refine ⟨_, rfl, ?_⟩
    rw [eqU64_ofNat hn, decide_eq_true_eq]
    refine ⟨fun same => ⟨p, member, same⟩, ?_⟩
    intro h
    obtain ⟨q, member', rfl⟩ := h
    exact ((Nat.prime_dvd_prime_iff_eq (prime_of_mem_small member)
      (prime_of_mem_small member')).mp divides).symm

/-- The rest goes through the two tests, the second only after the first. -/
theorem isProbPrime_of_no_small_factor (hn : n < 2 ^ (64 * 4)) (remains : ¬ HasSmallFactor n) :
    n % 2 = 1 ∧ n + 1 < 2 ^ (64 * 4) ∧ isProbPrime G (ofNat 4 n) =
      (passesMillerRabinBase2 G (ofNat 4 n) >>= fun passes =>
        if passes then passesLucas G (ofNat 4 n) else .ok false) := by
  have found : (SMALL_PRIMES.find? fun p => isDivisibleU G (ofNat 4 n) p) = none := by
    rw [List.find?_eq_none]
    intro p member divides
    exact remains ⟨p, member, (isDivisibleU_ofNat G hn p).mp divides⟩
  obtain ⟨odd, remainder⟩ := of_find_eq_none G hn found
  refine ⟨odd, succ_lt_of_mod_three hn remainder, ?_⟩
  unfold isProbPrime
  rw [found]
  rfl

/-- The two tests on what trial division leaves. -/
theorem isProbPrime_cases (hn : n < 2 ^ (64 * 4)) (remains : ¬ HasSmallFactor n) :
    (isProbPrime G (ofNat 4 n) = .ok true ∧ BailliePsw n) ∨
      (isProbPrime G (ofNat 4 n) = .ok false ∧ ¬ BailliePsw n ∧
        ¬ (PassesBaseTwo n ∧ ¬ IsSquare n ∧ firstD n = none)) ∨
      (isProbPrime G (ofNat 4 n) = .error .explicitPanic ∧
        PassesBaseTwo n ∧ ¬ IsSquare n ∧ firstD n = none) := by
  obtain ⟨odd, next, run⟩ := isProbPrime_of_no_small_factor G hn remains
  rw [run]
  by_cases square : IsSquare n
  · have refused := passesLucas_of_square G (chooseD_of_square G hn odd square)
    obtain ⟨⟨b, returned⟩, -⟩ := tests_return G hn odd next
    right; left
    refine ⟨?_, fun both => both.nonsquare square, fun both => both.2.1 square⟩
    rw [returned, Exec.ok_bind, refused]
    cases b with
    | true => rfl
    | false => rfl
  · have large : 3 ≤ n := by
      have notOne : n ≠ 1 := by
        rintro rfl
        exact square ⟨1, rfl⟩
      omega
    obtain ⟨b, returned, decides⟩ := passesMillerRabinBase2_decides G hn odd large
    rw [returned, Exec.ok_bind]
    cases b with
    | false =>
      have fails := mt decides.mpr Bool.false_ne_true
      exact Or.inr (Or.inl ⟨rfl, fun both => fails both.base, fun both => fails both.1⟩)
    | true =>
      have base := decides.mp rfl
      rw [if_pos rfl]
      cases first : firstD n with
      | none =>
        have panics := chooseD_of_nonsquare G hn odd square
        rw [first] at panics
        exact Or.inr (Or.inr ⟨passesLucas_of_exhausted G panics, base, square, rfl⟩)
      | some D =>
        obtain ⟨c, lucas, conditions⟩ := passesLucas_decides G hn odd large next square first
        rw [lucas]
        cases c with
        | true => exact Or.inl ⟨rfl, base, square, D, first, conditions.mp rfl⟩
        | false =>
          have fails := mt conditions.mpr Bool.false_ne_true
          refine Or.inr (Or.inl ⟨rfl, fun both => ?_, fun both => ?_⟩)
          · obtain ⟨D', first', holds⟩ := both.lucas
            rw [first] at first'
            cases first'
            exact fails holds
          · cases both.2.2

end

/-- Whatever the value, the test ends in one of three ways. -/
theorem isProbPrime_ends (G : Gmp) {n : U256} (normal : Normal n) :
    isProbPrime G n = .ok true ∨ isProbPrime G n = .ok false ∨
      isProbPrime G n = .error .explicitPanic := by
  have hn := n.toNat_lt
  rw [normal.eq_ofNat]
  by_cases small : HasSmallFactor n.toNat
  · obtain ⟨b, run, -⟩ := isProbPrime_of_small_factor G hn small
    rw [run]
    cases b with
    | true => exact Or.inl rfl
    | false => exact Or.inr (Or.inl rfl)
  · rcases isProbPrime_cases G hn small with ⟨run, -⟩ | ⟨run, -⟩ | ⟨run, -⟩
    · exact Or.inl run
    · exact Or.inr (Or.inl run)
    · exact Or.inr (Or.inr run)

theorem passesBaseTwo_of_prime {n : ℕ} (prime : n.Prime) (large : 3 ≤ n) : PassesBaseTwo n := by
  obtain ⟨r, d, oddPart, split⟩ := Nat.exists_eq_two_pow_mul_odd (show n - 1 ≠ 0 by omega)
  rw [mul_comm] at split
  exact ⟨d, r, split, Nat.odd_iff.mp oddPart, strongProbablePrime_of_prime prime large split⟩

/-- An odd prime that has a discriminant satisfies the conditions. -/
theorem bailliePsw_of_prime {n : ℕ} (prime : n.Prime) (large : 3 ≤ n) {D : ℤ}
    (first : firstD n = some D) : BailliePsw n := by
  have nonresidue : jacobiSym D n = -1 :=
    of_decide_eq_true (List.find?_some (p := fun D => decide (jacobiSym D n = -1)) first)
  have parameters := parameters_of_mem (List.mem_of_find?_eq_some first)
  obtain ⟨u, v, w⟩ := lucas_conditions prime large parameters nonresidue
  have conditions : LucasConditions n D := by
    refine ⟨u, ?_, ?_⟩
    · rw [v, Int.cast_mul, Int.cast_two]
    · rw [w, Int.cast_mul]
  exact ⟨passesBaseTwo_of_prime prime large, prime.prime.not_isSquare, D, first, conditions⟩

/-- What is rejected is composite. -/
theorem not_prime_of_rejected (G : Gmp) {n : U256} (normal : Normal n)
    (rejected : isProbPrime G n = .ok false) : ¬ n.toNat.Prime := by
  intro prime
  have hn := n.toNat_lt
  rw [normal.eq_ofNat] at rejected
  by_cases small : HasSmallFactor n.toNat
  · obtain ⟨b, run, entry⟩ := isProbPrime_of_small_factor G hn small
    rw [run] at rejected
    cases rejected
    obtain ⟨p, member, divides⟩ := small
    have same := (Nat.prime_dvd_prime_iff_eq (prime_of_mem_small member) prime).mp divides
    exact Bool.false_ne_true (entry.mpr ⟨p, member, same.symm⟩)
  · have large : 3 ≤ n.toNat := by
      have two : n.toNat ≠ 2 := fun two => small ⟨2, by decide, two ▸ dvd_rfl⟩
      have := prime.two_le
      omega
    rcases isProbPrime_cases G hn small with ⟨run, -⟩ | ⟨-, fails, defined⟩ | ⟨run, -⟩
    · rw [run] at rejected
      cases rejected
    · cases first : firstD n.toNat with
      | some D => exact fails (bailliePsw_of_prime prime large first)
      | none =>
        exact defined ⟨passesBaseTwo_of_prime prime large, prime.prime.not_isSquare, first⟩
    · rw [run] at rejected
      cases rejected

theorem not_hasSmallFactor_iff {n : ℕ} :
    ¬ HasSmallFactor n ↔ ∀ p ∈ SMALL_PRIMES, ¬ p.toNat ∣ n := by
  unfold HasSmallFactor
  push Not
  rfl

/-- What is accepted. -/
theorem isProbPrime_eq_true_iff (G : Gmp) {n : U256} (normal : Normal n) :
    isProbPrime G n = .ok true ↔ (∃ p ∈ SMALL_PRIMES, n.toNat = p.toNat) ∨
      ((∀ p ∈ SMALL_PRIMES, ¬ p.toNat ∣ n.toNat) ∧ BailliePsw n.toNat) := by
  have hn := n.toNat_lt
  rw [normal.eq_ofNat, toNat_ofNat hn, ← not_hasSmallFactor_iff]
  generalize n.toNat = m at hn
  by_cases small : HasSmallFactor m
  · obtain ⟨b, run, accepted⟩ := isProbPrime_of_small_factor G hn small
    rw [run, ← accepted]
    cases b with
    | true => simp
    | false => simp [small]
  · have noEntry : ¬ ∃ p ∈ SMALL_PRIMES, m = p.toNat := by
      intro h
      obtain ⟨p, member, rfl⟩ := h
      exact small ⟨p, member, dvd_rfl⟩
    rcases isProbPrime_cases G hn small with ⟨run, holds⟩ | ⟨run, fails, -⟩ | ⟨run, exhausted⟩
    · simp [run, small, holds]
    · simp [run, noEntry, fails]
    · have fails : ¬ BailliePsw m := by
        intro holds
        obtain ⟨D, first, -⟩ := holds.lucas
        rw [exhausted.2.2] at first
        cases first
      simp [run, noEntry, fails]

/-- Where it panics. -/
theorem isProbPrime_eq_panic_iff (G : Gmp) {n : U256} (normal : Normal n) :
    isProbPrime G n = .error .explicitPanic ↔
      (∀ p ∈ SMALL_PRIMES, ¬ p.toNat ∣ n.toNat) ∧ PassesBaseTwo n.toNat ∧
        ¬ IsSquare n.toNat ∧ ∀ D ∈ D_VALUES, jacobiSym D n.toNat ≠ -1 := by
  have hn := n.toNat_lt
  rw [normal.eq_ofNat, toNat_ofNat hn, ← not_hasSmallFactor_iff, ← firstD_eq_none_iff]
  generalize n.toNat = m at hn
  by_cases small : HasSmallFactor m
  · obtain ⟨b, run, -⟩ := isProbPrime_of_small_factor G hn small
    simp [run, small]
  · rcases isProbPrime_cases G hn small with ⟨run, holds⟩ | ⟨run, -, defined⟩ | ⟨run, exhausted⟩
    · obtain ⟨D, first, -⟩ := holds.lucas
      simp [run, first]
    · simp [run, defined]
    · simp [run, small, exhausted]

/-- The first prime behind the table: `D = -11` has symbol `-1`. -/
theorem isProbPrime_1229 : isProbPrime Gmp.reference (ofNat 4 1229) = .ok true := by
  have prime : Nat.Prime 1229 := by norm_num
  have nonresidue : jacobiSym (-11) 1229 = -1 := by norm_num
  rcases isProbPrime_of_prime_or_exhausted Gmp.reference (by norm_num) prime with
    accepted | ⟨-, exhausted⟩
  · exact accepted
  · exact absurd nonresidue (exhausted (-11) (by decide))

/-- The test accepts the small primes and what satisfies the Baillie-PSW conditions, and nothing
else; it panics where only the discriminant is missing. -/
theorem isProbPrime_decides (G : Gmp) (n : U256) (normal : Normal n) :
    (isProbPrime G n = .ok true ↔ (∃ p ∈ SMALL_PRIMES, n.toNat = p.toNat) ∨
        ((∀ p ∈ SMALL_PRIMES, ¬ p.toNat ∣ n.toNat) ∧ BailliePsw n.toNat)) ∧
      (isProbPrime G n = .error .explicitPanic ↔
        (∀ p ∈ SMALL_PRIMES, ¬ p.toNat ∣ n.toNat) ∧ PassesBaseTwo n.toNat ∧
          ¬ IsSquare n.toNat ∧ ∀ D ∈ D_VALUES, jacobiSym D n.toNat ≠ -1) ∧
      (isProbPrime G n = .ok true ∨ isProbPrime G n = .ok false ∨
        isProbPrime G n = .error .explicitPanic) :=
  ⟨isProbPrime_eq_true_iff G normal, isProbPrime_eq_panic_iff G normal, isProbPrime_ends G normal⟩

/-- The first prime behind the table satisfies the conditions. -/
theorem isProbPrime_decides_of_next :
    isProbPrime Gmp.reference (ofNat 4 1229) = .ok true ∧ BailliePsw 1229 := by
  have value : (ofNat 4 1229).toNat = 1229 := toNat_ofNat (by norm_num)
  refine ⟨isProbPrime_1229, ?_⟩
  obtain ⟨accepts, -⟩ := isProbPrime_decides Gmp.reference (ofNat 4 1229) (normal_ofNat 4 1229)
  rw [value] at accepts
  rcases accepts.mp isProbPrime_1229 with ⟨p, member, entry⟩ | ⟨-, conditions⟩
  · have below := lt_of_mem_small member
    omega
  · exact conditions

/-- Below the square of the first prime behind the table only primes are accepted. -/
theorem prime_of_isProbPrime (G : Gmp) (n : U256) (normal : Normal n)
    (below : n.toNat < 1229 ^ 2) (accepted : isProbPrime G n = .ok true) : n.toNat.Prime := by
  have hn := n.toNat_lt
  rw [normal.eq_ofNat] at accepted
  generalize n.toNat = m at hn below accepted
  by_cases small : HasSmallFactor m
  · obtain ⟨b, run, entry⟩ := isProbPrime_of_small_factor G hn small
    rw [run] at accepted
    cases accepted
    obtain ⟨p, member, rfl⟩ := entry.mp rfl
    exact prime_of_mem_small member
  · rcases isProbPrime_cases G hn small with ⟨-, holds⟩ | ⟨run, -⟩ | ⟨run, -⟩
    · have large : 2 ≤ m := by
        by_contra less
        have square : IsSquare m := ⟨m, by interval_cases m <;> rfl⟩
        exact holds.nonsquare square
      exact prime_of_no_small_factor large below small
    · rw [run] at accepted
      cases accepted
    · rw [run] at accepted
      cases accepted

/-- Trial division does not settle it. -/
theorem prime_of_isProbPrime_behind_table :
    isProbPrime Gmp.reference (ofNat 4 1229) = .ok true ∧ (ofNat 4 1229).toNat.Prime := by
  have below : (ofNat 4 1229).toNat < 1229 ^ 2 := by
    rw [toNat_ofNat (by norm_num)]
    norm_num
  exact ⟨isProbPrime_1229, prime_of_isProbPrime Gmp.reference (ofNat 4 1229)
    (normal_ofNat 4 1229) below isProbPrime_1229⟩

end Primality

end GroupAccumulator
