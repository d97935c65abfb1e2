import GroupAccumulator.Theory.UnitsUpToSign
import GroupAccumulator.GroupDefaults
import GroupAccumulator.Rug

/-!
# The RSA group

The functions of `group/rsa.rs`.  The modulus is a parameter `N`, which in the
crate is `RSA2048_MODULUS` both for the group's representation and inside `elem`.

`elem` is documented to treat `x` and `-x` as the same element.  It takes a
remainder with the sign of its argument and folds the upper half of the residues
onto the lower one.  A remainder below zero is not in the upper half and stays
as it is: `elem_of_negative` is where the documentation fails, and
`elem_eq_elem_iff_same_iff` says for which pairs.
-/

namespace GroupAccumulator

open Theory

/-- An RSA 2048 group element, directly wrapping a GMP integer. -/
structure Rsa2048Elem where
  val : ℤ
  deriving DecidableEq, Repr

/-- The lines of the decimal constant. -/
def RSA2048_MODULUS : ℤ :=
  [
  251959084756578934940271832400483985714292821262040320277771378360436620207075955562640185258807,
  8440691829064124951508218929855914917618450280848912007284499268739280728777673597141834727026189,
  6375014971824691165077613379859095700097330459748808428401797429100642458691817195118746121515172,
  6546322822168699875491824224336372590851418654620435767984233871847744479207399342365848238242811,
  9816381501067481045166037730605620161967625613384414360383390441495263443219011465754445417842402,
  0924616515723350778707749817125772467962926386356373289912154831438167899885040445364023527381951
  ].foldl (fun n line => n * 10 ^ 97 + line) 0 * 10 ^ 36 + 378636564391212010397122822120720357

namespace Rsa2048

/-- `HALF_MODULUS`. -/
def halfModulus (N : ℤ) : ℤ := N.tdiv 2

def elem (N t : ℤ) : Exec Rsa2048Elem := do
  let val ← remTrunc t N
  if val > halfModulus N then do
    let (_, rem) ← divRemEuc (-val) N
    return ⟨rem⟩
  else
    return ⟨val⟩

def op_ (N : ℤ) (a b : Rsa2048Elem) : Exec Rsa2048Elem := do
  elem N (← remTrunc (a.val * b.val) N)

def id_ (N : ℤ) : Exec Rsa2048Elem := elem N 1

def inv_ (M : RugModular) (N : ℤ) (x : Rsa2048Elem) : Exec Rsa2048Elem := do
  elem N (← unwrap (M.invert x.val N))

def exp_ (M : RugModular) (N : ℤ) (x : Rsa2048Elem) (n : ℤ) : Exec Rsa2048Elem := do
  elem N (← unwrap (M.powMod x.val n N))

def unknownOrderElem_ (N : ℤ) : Exec Rsa2048Elem := elem N 2

/-! ## Canonicalisation -/

/-- A negative number that leaves a remainder. -/
def NegativeResidue (N t : ℤ) : Prop := t < 0 ∧ ¬ N ∣ t

section

variable {N x y t : ℤ} {e : Rsa2048Elem}

/-- The truncated remainder is wrapped, reflected where it is above the half. -/
theorem elem_eq (positive : 0 < N) :
    elem N t = .ok ⟨if t.tmod N > N / 2 then -(t.tmod N) % N else t.tmod N⟩ := by
  unfold elem
  rw [remTrunc_of_ne_zero positive.ne', Exec.ok_bind, halfModulus,
    Int.tdiv_eq_ediv_of_nonneg positive.le]
  split
  next upper =>
    rw [divRemEuc_of_ne_zero positive.ne']
    rfl
  next lower => rfl

/-- Away from the negative residues `elem` folds. -/
theorem elem_eq_fold (positive : 0 < N) (proper : ¬ NegativeResidue N t) :
    elem N t = .ok ⟨fold N t⟩ := by
  have remainder : t.tmod N = t % N := by
    rw [Int.tmod_eq_emod, if_pos, Nat.cast_zero, sub_zero]
    by_contra neither
    push Not at neither
    exact proper neither
  have high := Int.emod_lt_of_pos t positive
  rw [elem_eq positive, remainder]
  unfold fold
  split
  next upper =>
    have reflected : -(t % N) % N = N - t % N := by
      rw [← Int.add_emod_right, Int.emod_eq_of_lt (by omega) (by omega)]
      ring
    rw [reflected]
  next lower => rfl

/-- A negative residue is wrapped with its sign. -/
theorem elem_of_negative (positive : 0 < N) (negative : NegativeResidue N t) :
    elem N t = .ok ⟨t % N - N⟩ := by
  have remainder : t.tmod N = t % N - N := by
    rw [Int.tmod_eq_emod, if_neg, Int.natAbs_of_nonneg positive.le]
    rintro (nonneg | divides)
    · exact absurd nonneg (not_le.mpr negative.1)
    · exact negative.2 divides
  have high := Int.emod_lt_of_pos t positive
  rw [elem_eq positive, remainder, if_neg (by omega)]

/-- What `elem` wraps is in the lower half of the residues unless the argument
was a negative residue. -/
theorem elem_mem_iff (positive : 0 < N) (run : elem N t = .ok e) :
    (0 ≤ e.val ∧ e.val ≤ N / 2) ↔ ¬ NegativeResidue N t := by
  by_cases negative : NegativeResidue N t
  · rw [elem_of_negative positive negative] at run
    cases run
    have high := Int.emod_lt_of_pos t positive
    refine ⟨fun mem => ?_, fun proper => absurd negative proper⟩
    exact absurd mem.1 (by simp only; omega)
  · rw [elem_eq_fold positive negative] at run
    cases run
    exact ⟨fun _ => negative, fun _ => fold_mem positive t⟩

/-- Two numbers for which `elem` and equality up to sign agree. -/
def Aligned (N x y : ℤ) : Prop :=
  ¬ SameUpToSign N x y ∨ (¬ NegativeResidue N x ∧ ¬ NegativeResidue N y) ∨
    (NegativeResidue N x ∧ NegativeResidue N y ∧ N ∣ x - y)

theorem elem_eq_elem_iff_same_iff (odd : N % 2 = 1) (positive : 0 < N) :
    (elem N x = elem N y ↔ SameUpToSign N x y) ↔ Aligned N x y := by
  have wrapped {a b : ℤ} :
      (.ok ⟨a⟩ : Exec Rsa2048Elem) = .ok ⟨b⟩ ↔ a = b := by simp
  -- a fold is never negative, a wrapped negative residue always is
  have apart (x y : ℤ) : fold N x ≠ y % N - N := by
    have low := (fold_mem positive x).1
    have high := Int.emod_lt_of_pos y positive
    omega
  unfold Aligned
  by_cases hx : NegativeResidue N x <;> by_cases hy : NegativeResidue N y
  · rw [elem_of_negative positive hx, elem_of_negative positive hy, wrapped, sub_left_inj,
      Int.emod_eq_emod_iff_emod_sub_eq_zero, ← Int.dvd_iff_emod_eq_zero]
    have same : N ∣ x - y → SameUpToSign N x y := Or.inl
    tauto
  · rw [elem_of_negative positive hx, elem_eq_fold positive hy, wrapped]
    have := (apart y x).symm
    tauto
  · rw [elem_eq_fold positive hx, elem_of_negative positive hy, wrapped]
    have := apart x y
    tauto
  · rw [elem_eq_fold positive hx, elem_eq_fold positive hy, wrapped,
      fold_eq_fold_iff odd positive]
    exact ⟨fun _ => Or.inr (Or.inl ⟨hx, hy⟩), fun _ => Iff.rfl⟩

end

/-! ## Values that are built -/

/-- The values composed of `elem`, `id`, `unknown_order_elem`, `op`, `exp` and
`inv`, where `elem` is given numbers that meet `Given`. -/
inductive Built (M : RugModular) (N : ℤ) (Given : ℤ → Prop) : Rsa2048Elem → Prop
  | elem {t e} : Given t → elem N t = .ok e → Built M N Given e
  | id {e} : id_ N = .ok e → Built M N Given e
  | unknownOrderElem {e} : unknownOrderElem_ N = .ok e → Built M N Given e
  | op {a b e} : Built M N Given a → Built M N Given b → op_ N a b = .ok e → Built M N Given e
  | exp {x n e} : Built M N Given x → exp_ M N x n = .ok e → Built M N Given e
  | inv {x e} : Built M N Given x → inv_ M N x = .ok e → Built M N Given e

/-- The lower half of the residues. -/
def Lower (N : ℤ) (e : Rsa2048Elem) : Prop := 0 ≤ e.val ∧ e.val ≤ N / 2

variable {M : RugModular} {N t : ℤ} {e : Rsa2048Elem}

theorem lower_of_elem (positive : 0 < N) (nonneg : 0 ≤ t) (run : elem N t = .ok e) :
    Lower N e :=
  (elem_mem_iff positive run).mpr fun negative => absurd negative.1 (not_lt.mpr nonneg)

theorem lower_of_op {a b : Rsa2048Elem} (positive : 0 < N) (ha : Lower N a) (hb : Lower N b)
    (run : op_ N a b = .ok e) : Lower N e := by
  unfold op_ at run
  rw [remTrunc_of_ne_zero positive.ne'] at run
  exact lower_of_elem positive (Int.tmod_nonneg _ (mul_nonneg ha.1 hb.1)) run

theorem lower_of_inv {x : Rsa2048Elem} (positive : 0 < N) (run : inv_ M N x = .ok e) :
    Lower N e := by
  by_cases coprime : IsCoprime x.val N
  · obtain ⟨y, inverted, low, -, -⟩ := M.invert_eq_some positive coprime
    unfold inv_ at run
    rw [inverted] at run
    exact lower_of_elem positive low run
  · unfold inv_ at run
    rw [M.invert_eq_none positive coprime] at run
    cases run

theorem lower_of_exp {x : Rsa2048Elem} {n : ℤ} (positive : 0 < N)
    (run : exp_ M N x n = .ok e) : Lower N e := by
  unfold exp_ at run
  cases n with
  | ofNat n =>
    rw [Int.ofNat_eq_natCast, M.powMod_natCast positive] at run
    exact lower_of_elem positive (Int.emod_nonneg _ positive.ne') run
  | negSucc n =>
    rw [M.powMod_negSucc positive] at run
    cases inverted : M.invert x.val N with
    | none =>
      rw [inverted] at run
      cases run
    | some y =>
      rw [inverted] at run
      exact lower_of_elem positive (Int.emod_nonneg _ positive.ne') run

/-- Every value built without a negative residue is in the lower half. -/
theorem Built.lower (positive : 0 < N) (built : Built M N (fun t => ¬ NegativeResidue N t) e) :
    Lower N e := by
  induction built with
  | elem proper run => exact (elem_mem_iff positive run).mpr proper
  | id run => exact lower_of_elem positive one_pos.le run
  | unknownOrderElem run => exact lower_of_elem positive two_pos.le run
  | op _ _ run ha hb => exact lower_of_op positive ha hb run
  | exp _ run _ => exact lower_of_exp positive run
  | inv _ run _ => exact lower_of_inv positive run

/-- `elem` identifies numbers up to sign exactly on the aligned pairs, what it
wraps is in `[0, N / 2]` exactly when it was given no negative residue, and then so
is everything built from it. -/
theorem elem_cosets_iff (M : RugModular) (N : ℤ) (odd : N % 2 = 1) (large : 2 < N) :
    (∀ x y, (elem N x = elem N y ↔ SameUpToSign N x y) ↔ Aligned N x y) ∧
      (∀ t e, elem N t = .ok e → (Lower N e ↔ ¬ NegativeResidue N t)) ∧
        ∀ e, Built M N (fun t => ¬ NegativeResidue N t) e → Lower N e := by
  have positive : 0 < N := by omega
  refine ⟨?_, ?_, ?_⟩
  · intro x y
    exact elem_eq_elem_iff_same_iff odd positive
  · intro t e run
    exact elem_mem_iff positive run
  · intro e built
    exact built.lower positive

theorem elem_cosets_iff_2048 :
    (∀ x y, (elem RSA2048_MODULUS x = elem RSA2048_MODULUS y ↔ SameUpToSign RSA2048_MODULUS x y) ↔
        Aligned RSA2048_MODULUS x y) ∧
      (∀ t e, elem RSA2048_MODULUS t = .ok e →
        (Lower RSA2048_MODULUS e ↔ ¬ NegativeResidue RSA2048_MODULUS t)) ∧
        ∀ e, Built RugModular.gmp RSA2048_MODULUS
          (fun t => ¬ NegativeResidue RSA2048_MODULUS t) e → Lower RSA2048_MODULUS e :=
  elem_cosets_iff RugModular.gmp RSA2048_MODULUS (by decide) (by decide)

/-- Three and its negation are different elements. -/
theorem elem_neg_three_ne :
    SameUpToSign RSA2048_MODULUS (-3) 3 ∧ elem RSA2048_MODULUS 3 = .ok ⟨3⟩ ∧
      elem RSA2048_MODULUS (-3) = .ok ⟨-3⟩ ∧
        Built RugModular.gmp RSA2048_MODULUS (fun _ => True) ⟨-3⟩ ∧
          ¬ Lower RSA2048_MODULUS ⟨-3⟩ := by
  have negative : elem RSA2048_MODULUS (-3) = .ok ⟨-3⟩ := by decide
  refine ⟨Or.inr (dvd_zero _), by decide, negative, .elem trivial negative, ?_⟩
  intro lower
  exact absurd lower.1 (by decide)

end Rsa2048

end GroupAccumulator
