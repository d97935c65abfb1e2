import GroupAccumulator.Rsa2048

/-!
# The RSA group on canonical elements

A canonical element wraps an integer in `[1, N / 2]` coprime to `N`.  It stands for
one class of the units modulo `N` up to sign, and every class has exactly one
canonical element.  Each operation of `Rsa2048` reduces modulo `N`, folds once and
so returns the canonical element of the class it should: `Stands.op`, `Stands.inv`,
`Stands.exp`.  The laws are those of the quotient, and the one-shot `exp_` agrees
with the default one because both return the canonical element of one power.
-/

namespace GroupAccumulator

open Theory

namespace Rsa2048

/-- An integer in `[1, N / 2]` coprime to `N`. -/
structure Canonical (N : ℤ) (e : Rsa2048Elem) : Prop where
  one_le : 1 ≤ e.val
  le_half : e.val ≤ N / 2
  coprime : IsCoprime e.val N

/-- A canonical element and the class it stands for. -/
structure Stands (N : ℤ) (e : Rsa2048Elem) (q : UnitsUpToSign N) : Prop where
  canonical : Canonical N e
  represents : Represents e.val q

/-- The functions `Rsa2048` supplies. -/
def fns (M : RugModular) (N : ℤ) : GroupFns Rsa2048Elem where
  id_ := id_ N
  op_ _ := op_ N
  inv_ := inv_ M N

variable {M : RugModular} {N : ℤ} {a b c e x : Rsa2048Elem} {q r : UnitsUpToSign N}

/-! ## Canonical elements and classes -/

theorem Canonical.exists_stands (canonical : Canonical N e) : ∃ q, Stands N e q := by
  obtain ⟨q, represents⟩ := exists_represents canonical.coprime
  exact ⟨q, canonical, represents⟩

theorem Stands.unique (odd : N % 2 = 1) (ha : Stands N a q) (hb : Stands N b q) : a = b := by
  have same := ha.represents.same hb.represents
  have bounds {e : Rsa2048Elem} (he : Stands N e q) : 0 ≤ e.val ∧ e.val ≤ N / 2 :=
    ⟨one_pos.le.trans he.canonical.one_le, he.canonical.le_half⟩
  rcases a with ⟨a⟩
  rcases b with ⟨b⟩
  exact congrArg Rsa2048Elem.mk (same.eq (bounds ha) (bounds hb) odd)

theorem exists_stands (large : 2 < N) (q : UnitsUpToSign N) : ∃ e, Stands N e q := by
  obtain ⟨x, low, high, represents⟩ := exists_canonical large q
  exact ⟨⟨x⟩, ⟨low, high, represents.isCoprime⟩, represents⟩

/-- `elem` returns the canonical element of the class of a nonnegative integer. -/
theorem stands_of_elem (large : 2 < N) {t : ℤ} (nonneg : 0 ≤ t) (represents : Represents t q) :
    ∃ e, elem N t = .ok e ∧ Stands N e q := by
  have positive : 0 < N := by omega
  have folded := represents.of_same (same_fold N t)
  obtain ⟨low, high⟩ := fold_mem positive t
  refine ⟨⟨fold N t⟩, elem_eq_fold positive (fun negative => ?_), ⟨?_, high, ?_⟩, folded⟩
  · exact absurd negative.1 (not_lt.mpr nonneg)
  · exact one_le_of_isCoprime large low folded.isCoprime
  · exact folded.isCoprime

/-! ## The operations -/

theorem Stands.id (large : 2 < N) : ∃ e, id_ N = .ok e ∧ Stands N e 1 :=
  stands_of_elem large one_pos.le represents_one

theorem Stands.op (large : 2 < N) (ha : Stands N a q) (hb : Stands N b r) :
    ∃ c, op_ N a b = .ok c ∧ Stands N c (q * r) := by
  have ne : N ≠ 0 := by omega
  have nonneg : 0 ≤ a.val * b.val :=
    mul_nonneg (one_pos.le.trans ha.canonical.one_le) (one_pos.le.trans hb.canonical.one_le)
  have same : SameUpToSign N (a.val * b.val) ((a.val * b.val).tmod N) :=
    Or.inl ⟨(a.val * b.val).tdiv N,
      by linear_combination -Int.tmod_add_mul_tdiv (a.val * b.val) N⟩
  have product := (ha.represents.mul hb.represents).of_same same
  unfold op_
  rw [remTrunc_of_ne_zero ne, Exec.ok_bind]
  exact stands_of_elem large (Int.tmod_nonneg _ nonneg) product

theorem Stands.inv (M : RugModular) (large : 2 < N) (ha : Stands N a q) :
    ∃ b, inv_ M N a = .ok b ∧ Stands N b q⁻¹ := by
  obtain ⟨y, inverted, low, -, inverse⟩ := M.invert_eq_some (by omega) ha.canonical.coprime
  unfold inv_
  rw [inverted]
  exact stands_of_elem large low (ha.represents.inv inverse)

/-- A reduced power of a representative represents the power. -/
theorem represents_pow_emod {t : ℤ} (represents : Represents t q) (n : ℕ) :
    Represents (t ^ n % N) (q ^ n) :=
  (represents.pow n).of_same
    (Or.inl ⟨t ^ n / N, by linear_combination -Int.emod_add_mul_ediv (t ^ n) N⟩)

theorem Stands.exp (M : RugModular) (large : 2 < N) (hx : Stands N x q) (n : ℤ) :
    ∃ c, exp_ M N x n = .ok c ∧ Stands N c (q ^ n) := by
  have positive : 0 < N := by omega
  unfold exp_
  cases n with
  | ofNat n =>
    rw [Int.ofNat_eq_natCast, M.powMod_natCast positive, zpow_natCast]
    exact stands_of_elem large (Int.emod_nonneg _ positive.ne')
      (represents_pow_emod hx.represents n)
  | negSucc n =>
    obtain ⟨y, inverted, -, -, inverse⟩ := M.invert_eq_some positive hx.canonical.coprime
    have power : q ^ Int.negSucc n = q⁻¹ ^ (n + 1) :=
      (zpow_negSucc q n).trans (inv_pow q (n + 1)).symm
    rw [M.powMod_negSucc positive, inverted, power]
    exact stands_of_elem large (Int.emod_nonneg _ positive.ne')
      (represents_pow_emod (hx.represents.inv inverse) (n + 1))

/-- The three functions realize the units modulo `N` up to sign. -/
theorem realizes (M : RugModular) (large : 2 < N) : (fns M N).Realizes (Stands N) where
  id_ := Stands.id large
  op_ ha hb := by
    obtain ⟨c, run, hc⟩ := ha.op large hb
    exact ⟨c, Returns.of_eq fun _ => run, hc⟩
  inv_ ha := ha.inv M large

/-! ## Laws -/

section

variable {s : UnitsUpToSign N}

/-- A product is the canonical element of the product of the classes. -/
theorem Stands.op_eq_ok_iff (odd : N % 2 = 1) (large : 2 < N) (ha : Stands N a q)
    (hb : Stands N b r) (hc : Stands N c s) : op_ N a b = .ok c ↔ q * r = s := by
  obtain ⟨d, run, hd⟩ := ha.op large hb
  rw [run]
  constructor
  · intro same
    cases same
    exact hd.represents.unique hc.represents
  · intro product
    rw [product] at hd
    rw [hd.unique odd hc]

theorem Stands.op_assoc (odd : N % 2 = 1) (large : 2 < N) (ha : Stands N a q)
    (hb : Stands N b r) (hc : Stands N c s) :
    (do op_ N (← op_ N a b) c) = (do op_ N a (← op_ N b c)) := by
  obtain ⟨left, runLeft, hleft⟩ := ha.op large hb
  obtain ⟨right, runRight, hright⟩ := hb.op large hc
  obtain ⟨d, run, hd⟩ := hleft.op large hc
  have same : op_ N a right = .ok d :=
    (ha.op_eq_ok_iff odd large hright hd).mpr (mul_assoc q r s).symm
  rw [runLeft, runRight, Exec.ok_bind, Exec.ok_bind, run, same]

theorem Stands.id_op (odd : N % 2 = 1) (large : 2 < N) (ha : Stands N a q) :
    (do op_ N (← id_ N) a) = .ok a := by
  obtain ⟨e, run, he⟩ := Stands.id large
  rw [run, Exec.ok_bind]
  exact (he.op_eq_ok_iff odd large ha ha).mpr (one_mul q)

theorem Stands.inv_op (M : RugModular) (odd : N % 2 = 1) (large : 2 < N) (ha : Stands N a q) :
    (do op_ N (← inv_ M N a) a) = id_ N := by
  obtain ⟨b, run, hb⟩ := ha.inv M large
  obtain ⟨e, id, he⟩ := Stands.id large
  rw [run, Exec.ok_bind, id]
  exact (hb.op_eq_ok_iff odd large ha he).mpr (inv_mul_cancel q)

end

/-! ## The group -/

/-- Canonical elements are the classes. -/
theorem exists_equiv (odd : N % 2 = 1) (large : 2 < N) :
    ∃ φ : {e // Canonical N e} ≃ UnitsUpToSign N, ∀ e, Stands N e.1 (φ e) := by
  choose class_ stands using fun e : {e // Canonical N e} => e.2.exists_stands
  choose elem_ back using exists_stands (N := N) large
  refine ⟨⟨class_, fun q => ⟨elem_ q, (back q).canonical⟩, ?_, ?_⟩, stands⟩
  · intro e
    exact Subtype.ext ((back _).unique odd (stands e))
  · intro q
    exact (stands _).represents.unique (back q).represents

/-- `Rsa2048` on canonical elements: no function panics or leaves them, the laws
hold of the integers wrapped, and `exp_` is the default one. -/
structure IsGroup (M : RugModular) (N : ℤ) : Prop where
  id_canonical : ∃ e, id_ N = .ok e ∧ Canonical N e
  op_canonical : ∀ a b, Canonical N a → Canonical N b → ∃ c, op_ N a b = .ok c ∧ Canonical N c
  inv_canonical : ∀ a, Canonical N a → ∃ b, inv_ M N a = .ok b ∧ Canonical N b
  assoc : ∀ a b c, Canonical N a → Canonical N b → Canonical N c →
    (do op_ N (← op_ N a b) c) = (do op_ N a (← op_ N b c))
  comm : ∀ a b, Canonical N a → Canonical N b → op_ N a b = op_ N b a
  id_op : ∀ a, Canonical N a → (do op_ N (← id_ N) a) = .ok a
  inv_op : ∀ a, Canonical N a → (do op_ N (← inv_ M N a) a) = id_ N
  /-- The group is the units modulo `N` divided by `{1, -1}`. -/
  units : ∃ φ : {e // Canonical N e} ≃ UnitsUpToSign N,
    (∀ e, Represents e.1.val (φ e)) ∧
      ∀ a b c : {e // Canonical N e}, op_ N a.1 b.1 = .ok c.1 ↔ φ a * φ b = φ c
  exp_default : ∀ x n, Canonical N x →
    ∃ c, exp_ M N x n = .ok c ∧ Canonical N c ∧
      Returns (fun fuel => (fns M N).exp_ fuel x n) c

theorem canonical_group (M : RugModular) (N : ℤ) (odd : N % 2 = 1) (large : 2 < N) :
    IsGroup M N where
  id_canonical := by
    obtain ⟨e, run, he⟩ := Stands.id large
    exact ⟨e, run, he.canonical⟩
  op_canonical a b ha hb := by
    obtain ⟨q, hq⟩ := ha.exists_stands
    obtain ⟨r, hr⟩ := hb.exists_stands
    obtain ⟨c, run, hc⟩ := hq.op large hr
    exact ⟨c, run, hc.canonical⟩
  inv_canonical a ha := by
    obtain ⟨q, hq⟩ := ha.exists_stands
    obtain ⟨b, run, hb⟩ := hq.inv M large
    exact ⟨b, run, hb.canonical⟩
  assoc a b c ha hb hc := by
    obtain ⟨q, hq⟩ := ha.exists_stands
    obtain ⟨r, hr⟩ := hb.exists_stands
    obtain ⟨s, hs⟩ := hc.exists_stands
    exact hq.op_assoc odd large hr hs
  comm a b _ _ := by
    unfold op_
    rw [mul_comm]
  id_op a ha := by
    obtain ⟨q, hq⟩ := ha.exists_stands
    exact hq.id_op odd large
  inv_op a ha := by
    obtain ⟨q, hq⟩ := ha.exists_stands
    exact hq.inv_op M odd large
  units := by
    obtain ⟨φ, stands⟩ := exists_equiv odd large
    refine ⟨φ, fun e => (stands e).represents, fun a b c => ?_⟩
    exact (stands a).op_eq_ok_iff odd large (stands b) (stands c)
  exp_default x n hx := by
    obtain ⟨q, hq⟩ := hx.exists_stands
    obtain ⟨c, run, hc⟩ := hq.exp M large n
    obtain ⟨d, default, hd⟩ := (realizes M large).exp_ hq n
    rw [hd.unique odd hc] at default
    exact ⟨c, run, hc.canonical, default⟩

theorem canonical_group_2048 : IsGroup RugModular.gmp RSA2048_MODULUS :=
  canonical_group RugModular.gmp RSA2048_MODULUS (by decide) (by decide)

end Rsa2048

end GroupAccumulator
