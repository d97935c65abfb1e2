import GroupAccumulator.Theory.Halves
import GroupAccumulator.Theory.JointRoots
import GroupAccumulator.Group
import GroupAccumulator.Rug
import Mathlib.Data.Int.ModEq
import Mathlib.Data.List.Infix
import Mathlib.Data.Set.Operations
import Mathlib.Tactic.Linarith

/-!
# Shared helpers

The functions of `util.rs`: the linear-congruence solver of the class group, the
Shamir trick, and the divide-and-conquer fold that batches it.  The solver returns all
solutions or says that there are none; the trick returns the one common root of its
arguments or nothing, whatever cofactors GMP picks.

`divideAndConquer_` is private to the source and called on non-empty slices
only; here the slice carries that fact, which makes its recursion total.
`divideAndConquer_induct` is the rule: what holds of every single entry and
survives every combination of neighbouring segments holds of the whole fold.
-/

namespace GroupAccumulator

open Theory

/-! ## Linear congruences -/

/-- Solves `a x = b mod m`; the solutions are `mu + v n` for any integer `n`. -/
def solveLinearCongruence (R : Rug) (a b m : ℤ) : Exec (Option (ℤ × ℤ)) := do
  -- g = gcd(a, m) => da + em = g
  let (g, d, _) := R.gcdCofactors a m
  let (q, r) ← divRemFloor b g
  if r ≠ 0 then
    return none
  let mu ← remTrunc (q * d) m
  let v ← divTrunc m g
  return some (mu, v)

theorem gcd_ne_zero_of_right {a m : ℤ} (hm : m ≠ 0) : (Int.gcd a m : ℤ) ≠ 0 := by
  intro zero
  exact hm (Int.gcd_eq_zero_iff.mp (Int.natCast_eq_zero.mp zero)).2

/-- A solvable congruence is solved, and its solutions repeat after `v`. -/
theorem solveLinearCongruence_of_dvd (R : Rug) {a b m : ℤ} (hm : m ≠ 0)
    (solvable : (Int.gcd a m : ℤ) ∣ b) :
    ∃ mu v, solveLinearCongruence R a b m = .ok (some (mu, v)) ∧
      v * Int.gcd a m = m ∧ m ∣ a * mu - b := by
  have hg := gcd_ne_zero_of_right (a := a) hm
  have bez := R.bezout a m
  rw [R.gcd_eq] at bez
  rcases solvable with ⟨q, rfl⟩
  refine ⟨(q * (R.gcdCofactors a m).2.1).tmod m, m.tdiv (Int.gcd a m), ?_, ?_, ?_⟩
  · unfold solveLinearCongruence
    simp only [R.gcd_eq, divRemFloor_of_mul_eq hg rfl, remTrunc_of_ne_zero hm,
      divTrunc_of_ne_zero hg]
    rfl
  · exact Int.tdiv_mul_cancel (Int.gcd_dvd_right ..)
  · have split := Int.tmod_add_mul_tdiv (q * (R.gcdCofactors a m).2.1) m
    refine ⟨-(q * (R.gcdCofactors a m).2.2) - a * (q * (R.gcdCofactors a m).2.1).tdiv m, ?_⟩
    linear_combination a * split + q * bez

/-- Any other congruence is refused. -/
theorem solveLinearCongruence_of_not_dvd (R : Rug) {a b m : ℤ} (hm : m ≠ 0)
    (unsolvable : ¬ (Int.gcd a m : ℤ) ∣ b) : solveLinearCongruence R a b m = .ok none := by
  have hg := gcd_ne_zero_of_right (a := a) hm
  have remainder : b.fmod (Int.gcd a m) ≠ 0 := mt Int.dvd_of_fmod_eq_zero unsolvable
  unfold solveLinearCongruence
  simp only [R.gcd_eq, divRemFloor_of_ne_zero hg]
  exact if_pos remainder

/-- A congruence with a solution has a right-hand side the gcd divides. -/
theorem gcd_dvd_of_modEq {a b m x : ℤ} (solves : a * x ≡ b [ZMOD m]) :
    (Int.gcd a m : ℤ) ∣ b := by
  have modulus : (Int.gcd a m : ℤ) ∣ b - a * x := (Int.gcd_dvd_right ..).trans solves.dvd
  exact (dvd_sub_left (Dvd.dvd.mul_right (Int.gcd_dvd_left ..) x)).mp modulus

/-- From one solution all others are reached in steps of the modulus over the gcd. -/
theorem modEq_iff_of_solution {a b m mu v x : ℤ} (hm : m ≠ 0) (period : v * Int.gcd a m = m)
    (solves : m ∣ a * mu - b) : a * x ≡ b [ZMOD m] ↔ ∃ n, x = mu + v * n := by
  have moved : a * x - b = a * (x - mu) + (a * mu - b) := by ring
  rw [Int.modEq_comm, Int.modEq_iff_dvd, moved, dvd_add_left solves]
  constructor
  · intro divides
    -- the gcd is a combination of `a` and `m`, so `m` divides its multiple too
    have bez := Int.gcd_eq_gcd_ab a m
    have scaled : v * Int.gcd a m ∣ (x - mu) * Int.gcd a m := by
      have split : (x - mu) * Int.gcd a m =
          a * (x - mu) * Int.gcdA a m + m * ((x - mu) * Int.gcdB a m) := by
        rw [bez]
        ring
      rw [period, split]
      exact dvd_add (Dvd.dvd.mul_right divides _) (Dvd.intro _ rfl)
    obtain ⟨n, step⟩ := (mul_dvd_mul_iff_right (gcd_ne_zero_of_right hm)).mp scaled
    exact ⟨n, by linarith⟩
  · intro reached
    obtain ⟨n, rfl⟩ := reached
    obtain ⟨a', factor⟩ : (Int.gcd a m : ℤ) ∣ a := Int.gcd_dvd_left ..
    refine ⟨a' * n, ?_⟩
    calc a * (mu + v * n - mu) = a * (v * n) := by ring
      _ = Int.gcd a m * a' * (v * n) := by rw [← factor]
      _ = v * Int.gcd a m * (a' * n) := by ring
      _ = m * (a' * n) := by rw [period]

/-- The solver refuses exactly the congruences without a solution, and returns all
solutions of the others. -/
theorem solveLinearCongruence_sound_complete (R : Rug) (a b m : ℤ) (nonzero : m ≠ 0) :
    (solveLinearCongruence R a b m = .ok none ↔ ¬ ∃ x, a * x ≡ b [ZMOD m]) ∧
      ((∃ x, a * x ≡ b [ZMOD m]) → ∃ mu v, solveLinearCongruence R a b m = .ok (some (mu, v)) ∧
        {x | a * x ≡ b [ZMOD m]} = Set.range fun n => mu + v * n) := by
  by_cases divides : (Int.gcd a m : ℤ) ∣ b
  · obtain ⟨mu, v, run, period, solves⟩ := solveLinearCongruence_of_dvd R nonzero divides
    have all (x : ℤ) : a * x ≡ b [ZMOD m] ↔ ∃ n, x = mu + v * n :=
      modEq_iff_of_solution nonzero period solves
    refine ⟨⟨?_, ?_⟩, fun _ => ⟨mu, v, run, ?_⟩⟩
    · intro unsolved
      rw [run] at unsolved
      cases unsolved
    · intro unsolvable
      exact (unsolvable ⟨mu, (all mu).mpr ⟨0, by ring⟩⟩).elim
    · ext x
      exact (all x).trans (exists_congr fun n => eq_comm)
  · have unsolvable : ¬ ∃ x, a * x ≡ b [ZMOD m] :=
      fun ⟨_, solves⟩ => divides (gcd_dvd_of_modEq solves)
    refine ⟨⟨fun _ => unsolvable, fun _ => ?_⟩, fun solvable => (unsolvable solvable).elim⟩
    exact solveLinearCongruence_of_not_dvd R nonzero divides

/-- Two solutions modulo six, and a negative modulus. -/
theorem solveLinearCongruence_sound_complete_neg_six :
    (solveLinearCongruence Rug.gmp 2 4 (-6) = .ok none ↔ ¬ ∃ x, 2 * x ≡ 4 [ZMOD -6]) ∧
      ((∃ x, 2 * x ≡ 4 [ZMOD -6]) →
        ∃ mu v, solveLinearCongruence Rug.gmp 2 4 (-6) = .ok (some (mu, v)) ∧
          {x | 2 * x ≡ 4 [ZMOD -6]} = Set.range fun n => mu + v * n) :=
  solveLinearCongruence_sound_complete Rug.gmp 2 4 (-6) (by decide)

/-! ## The Shamir trick -/

section

variable {E : Type} [DecidableEq E]

/-- The `(xy)`th root of `g` from its `x`th and `y`th roots, for coprime `x` and `y`. -/
def shamirTrick [GroupTrait E] (R : Rug) (xthRoot ythRoot : E) (x y : ℤ) : Option E :=
  if exp xthRoot x ≠ exp ythRoot y then none
  else
    let (gcd, a, b) := R.gcdCofactors x y
    if gcd ≠ 1 then none
    else some (op (exp xthRoot b) (exp ythRoot a))

variable [AbelianGroup E] (R : Rug) {u v : E} {x y : ℤ}

/-- Roots of one element with coprime exponents are combined, the cofactors
attached crosswise. -/
theorem shamirTrick_of_coprime (same : u ^ x = v ^ y) (coprime : IsCoprime x y) :
    ∃ a b : ℤ, a * x + b * y = 1 ∧ shamirTrick R u v x y = some (u ^ b * v ^ a) := by
  have unit := R.gcd_eq_one_iff.mpr coprime
  refine ⟨(R.gcdCofactors x y).2.1, (R.gcdCofactors x y).2.2, R.bezout_of_gcd_eq_one unit, ?_⟩
  unfold shamirTrick
  exact (if_neg (not_not.mpr same)).trans (if_neg (not_not.mpr unit))

theorem coprime_of_shamirTrick {z : E} (run : shamirTrick R u v x y = some z) :
    IsCoprime x y := by
  rw [← R.gcd_eq_one_iff]
  by_contra ne
  unfold shamirTrick at run
  split at run
  · cases run
  · simp only [if_pos ne] at run
    cases run

theorem same_of_shamirTrick {z : E} (run : shamirTrick R u v x y = some z) : u ^ x = v ^ y := by
  by_contra differ
  have refused : shamirTrick R u v x y = none := if_pos differ
  rw [refused] at run
  cases run

/-- What is returned is a root of both, and no other element is. -/
theorem shamirTrick_eq_some_iff (R : Rug) {r : E} :
    shamirTrick R u v x y = some r ↔ IsCoprime x y ∧ r ^ y = u ∧ r ^ x = v := by
  have unique {s t : E} (coprime : IsCoprime x y) (hy : s ^ y = t ^ y) (hx : s ^ x = t ^ x) :
      s = t := by
    apply mul_inv_eq_one.mp
    apply eq_one_of_coprime_zpow coprime
    · rw [mul_zpow, inv_zpow, hx, mul_inv_cancel]
    · rw [mul_zpow, inv_zpow, hy, mul_inv_cancel]
  constructor
  · intro run
    have coprime := coprime_of_shamirTrick R run
    have same := same_of_shamirTrick R run
    obtain ⟨a, b, bez, returned⟩ := shamirTrick_of_coprime R same coprime
    rw [returned] at run
    cases run
    exact ⟨coprime, combine_pow same bez⟩
  · intro root
    obtain ⟨coprime, rfl, rfl⟩ := root
    have same : (r ^ y) ^ x = (r ^ x) ^ y := by rw [← zpow_mul, ← zpow_mul, mul_comm]
    obtain ⟨a, b, bez, returned⟩ := shamirTrick_of_coprime R same coprime
    obtain ⟨toLeft, toRight⟩ := combine_pow same bez
    rw [returned, unique coprime toLeft toRight]

/-- The trick returns the only common root where the two powers agree and the exponents are
coprime, and nothing otherwise. -/
theorem shamirTrick_exact (R : Rug) (u v : E) (x y : ℤ) :
    ((∃ r, shamirTrick R u v x y = some r) ↔ exp u x = exp v y ∧ Int.gcd x y = 1) ∧
      (∀ r, shamirTrick R u v x y = some r →
        exp r y = u ∧ exp r x = v ∧ exp r (x * y) = exp u x ∧
          ∀ s, exp s y = u → exp s x = v → s = r) ∧
      (¬ (exp u x = exp v y ∧ Int.gcd x y = 1) → shamirTrick R u v x y = none) := by
  have returns : (∃ r, shamirTrick R u v x y = some r) ↔
      exp u x = exp v y ∧ Int.gcd x y = 1 := by
    rw [← Int.isCoprime_iff_gcd_eq_one]
    constructor
    · intro h
      obtain ⟨r, run⟩ := h
      exact ⟨same_of_shamirTrick R run, coprime_of_shamirTrick R run⟩
    · intro both
      obtain ⟨a, b, -, run⟩ := shamirTrick_of_coprime R both.1 both.2
      exact ⟨_, run⟩
  refine ⟨returns, fun r run => ?_, fun refused => ?_⟩
  · obtain ⟨coprime, left, right⟩ := (shamirTrick_eq_some_iff R).mp run
    refine ⟨left, right, ?_, fun s hy hx => ?_⟩
    · have power : r ^ (x * y) = u ^ x := by rw [mul_comm, zpow_mul, left]
      exact power
    · have again : shamirTrick R u v x y = some s :=
        (shamirTrick_eq_some_iff R).mpr ⟨coprime, hy, hx⟩
      rw [run] at again
      exact (Option.some.inj again).symm
  · cases run : shamirTrick R u v x y with
    | none => rfl
    | some r => exact (refused (returns.mp ⟨r, run⟩)).elim

end

/-! ## Divide and conquer -/

section

variable {ε T : Type}

/-- Folds a non-empty slice by halves. -/
def divideAndConquer_ (f : T → T → Outcome ε T) (xs : List T) (ne : xs ≠ []) : Outcome ε T :=
  if single : xs.length = 1 then
    pure (xs.head ne)
  else do
    have : 2 ≤ xs.length := by
      have := List.length_pos_iff.mpr ne
      omega
    let mid := xs.length / 2
    let left ← divideAndConquer_ f (xs.take mid) (by
      apply List.ne_nil_of_length_pos
      simp only [List.length_take, mid]
      omega)
    let right ← divideAndConquer_ f (xs.drop mid) (by
      apply List.ne_nil_of_length_pos
      simp only [List.length_drop, mid]
      omega)
    f left right
termination_by xs.length
decreasing_by
  · simp only [List.length_take]
    omega
  · simp only [List.length_drop]
    omega

/-- Instead of `F(F(F(F(acc, a), b), c), d)` computes `F(acc, F(F(a, b), F(c, d)))`. -/
def divideAndConquer (f : T → T → Outcome ε T) (acc : T) (xs : List T) : Outcome ε T :=
  if empty : xs = [] then
    pure acc
  else do
    f acc (← divideAndConquer_ f xs empty)

variable {f : T → T → Outcome ε T} {P : List T → Outcome ε T → Prop}

/-- The recursion on a slice, for a property of the slice and of what its fold returns. -/
theorem divideAndConquer_slice_induct (single : ∀ x, P [x] (.ok x))
    (halves : ∀ zs : List T, 2 ≤ zs.length → ∀ left right,
      P (zs.take (zs.length / 2)) (divideAndConquer_ f (zs.take (zs.length / 2)) left) →
      P (zs.drop (zs.length / 2)) (divideAndConquer_ f (zs.drop (zs.length / 2)) right) →
      P zs (divideAndConquer_ f (zs.take (zs.length / 2)) left >>= fun a =>
        divideAndConquer_ f (zs.drop (zs.length / 2)) right >>= fun b => f a b))
    {xs : List T} (ne : xs ≠ []) : P xs (divideAndConquer_ f xs ne) := by
  refine halves_induct (P := fun zs => ∀ nonempty : zs ≠ [], P zs (divideAndConquer_ f zs nonempty))
    ?_ ?_ ne ne
  · intro x nonempty
    rw [divideAndConquer_, dif_pos List.length_singleton]
    exact single x
  · intro zs many left right nonempty
    have longer : ¬ zs.length = 1 := by omega
    obtain ⟨⟨positive, -⟩, positive', -⟩ := length_halves nonempty longer
    have leftNonempty := List.ne_nil_of_length_pos positive
    have rightNonempty := List.ne_nil_of_length_pos positive'
    rw [divideAndConquer_, dif_neg longer]
    exact halves zs many leftNonempty rightNonempty (left leftNonempty) (right rightNonempty)

/-- The halving fold has every property its leaves have and its combinations
of neighbouring segments keep. -/
theorem divideAndConquer_halves {xs : List T} (ne : xs ≠ []) (single : ∀ x ∈ xs, P [x] (.ok x))
    (merge : ∀ l r p q, l ++ r <:+: xs → P l p → P r q →
      P (l ++ r) (p >>= fun a => q >>= fun b => f a b)) :
    P xs (divideAndConquer_ f xs ne) := by
  refine divideAndConquer_slice_induct (P := fun zs o => zs <:+: xs → P zs o) ?_ ?_ ne
    List.infix_rfl
  · intro x within
    exact single x (within.subset List.mem_cons_self)
  · intro zs _ _ _ left right within
    have prefixed : zs.take (zs.length / 2) <:+: zs := (List.take_prefix _ zs).isInfix
    have suffixed : zs.drop (zs.length / 2) <:+: zs := (List.drop_suffix _ zs).isInfix
    have joined := merge _ _ _ _ (by rwa [List.take_append_drop]) (left (prefixed.trans within))
      (right (suffixed.trans within))
    rwa [List.take_append_drop] at joined

variable {acc : T} {xs : List T}

/-- The same for the whole fold, whose seed stands for the empty slice. -/
theorem divideAndConquer_induct (seed : P [] (.ok acc)) (single : ∀ x ∈ xs, P [x] (.ok x))
    (merge : ∀ l r p q, l ++ r <:+: xs → P l p → P r q →
      P (l ++ r) (p >>= fun a => q >>= fun b => f a b)) :
    P xs (divideAndConquer f acc xs) := by
  unfold divideAndConquer
  split
  next empty =>
    rw [empty]
    exact seed
  next nonempty =>
    exact merge [] xs _ _ List.infix_rfl seed (divideAndConquer_halves nonempty single merge)

/-- A fold whose combinations of neighbouring segments all succeed succeeds. -/
theorem divideAndConquer_eq_ok {Q : List T → T → Prop} (seed : Q [] acc)
    (single : ∀ x ∈ xs, Q [x] x)
    (merge : ∀ l r a b, l ++ r <:+: xs → Q l a → Q r b → ∃ c, f a b = .ok c ∧ Q (l ++ r) c) :
    ∃ c, divideAndConquer f acc xs = .ok c ∧ Q xs c := by
  apply divideAndConquer_induct (P := fun l o => ∃ c, o = .ok c ∧ Q l c)
  · exact ⟨acc, rfl, seed⟩
  · intro x member
    exact ⟨x, rfl, single x member⟩
  · intro l r p q within left right
    rcases left with ⟨a, rfl, left⟩
    rcases right with ⟨b, rfl, right⟩
    exact merge l r a b within left right

/-- What a fold that succeeded went through. -/
theorem of_divideAndConquer_eq_ok {Q : List T → T → Prop} {c : T} (seed : Q [] acc)
    (single : ∀ x ∈ xs, Q [x] x)
    (merge : ∀ l r a b c, Q l a → Q r b → f a b = .ok c → Q (l ++ r) c)
    (run : divideAndConquer f acc xs = .ok c) : Q xs c := by
  refine divideAndConquer_induct (P := fun l o => ∀ c, o = .ok c → Q l c) ?_ ?_ ?_ c run
  · intro c eq
    cases eq
    exact seed
  · intro x member c eq
    cases eq
    exact single x member
  · intro l r p q _ left right c eq
    rcases Outcome.bind_eq_ok eq with ⟨a, first, eq⟩
    rcases Outcome.bind_eq_ok eq with ⟨b, second, eq⟩
    exact merge l r a b c (left a first) (right b second) eq

end

end GroupAccumulator
