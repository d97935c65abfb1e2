import GroupAccumulator.UintValue

/-!
# Division of fixed-width integers

`%` by value computes the remainder for every size of its operands (`rem_ofNat`,
`remU256_ofNat`).  The other two operators do so for some sizes only.  `/` returns the
dividend where the divisor has more limbs, though the quotient is zero there
(`div_of_limbCount_lt`).  `%=` writes the remainder over the dividend and leaves the
limbs above it (`remAssign_ofNat`).
-/

namespace GroupAccumulator

open Theory

namespace Uint

variable (G : Gmp) {w a b : ℕ}

theorem Normal.size_le_iff {x y : Uint w} (hx : Normal x) (hy : Normal y) :
    x.size ≤ y.size ↔ limbCount x.toNat ≤ limbCount y.toNat := by
  rw [hx.eq_ofNat, hy.eq_ofNat, size_ofNat x.toNat_lt, size_ofNat y.toNat_lt,
    toNat_ofNat x.toNat_lt, toNat_ofNat y.toNat_lt, Nat.cast_le]

/-! ## What the operators compute -/

/-- A divisor with more limbs is answered with the dividend. -/
theorem div_of_limbCount_lt (ha : a < 2 ^ (64 * w)) (hb : b < 2 ^ (64 * w))
    (fewer : limbCount a < limbCount b) :
    div G (ofNat w a) (ofNat w b) = .ok (ofNat w a) := by
  rw [div, size_ofNat ha, size_ofNat hb, if_pos (by omega)]
  rfl

theorem div_ofNat (ha : a < 2 ^ (64 * w)) (hb : b < 2 ^ (64 * w)) (ne : b ≠ 0)
    (enough : limbCount b ≤ limbCount a) :
    div G (ofNat w a) (ofNat w b) = .ok (ofNat w (a / b)) := by
  rw [div, size_ofNat ha, size_ofNat hb, if_neg (by omega),
    tdivQr_ofNat G ha hb ne enough, Exec.ok_bind]
  change Except.ok (normalizeSize ⟨_, (zero : Uint w).limbs.write
    (limbCount a - limbCount b + 1) (a / b)⟩) = _
  rw [write_zero (div_lt_pow_limbCount ne), normalizeSize_eq]

/-- The limbs of the dividend above those of the divisor stay. -/
theorem remAssign_ofNat (ha : a < 2 ^ (64 * w)) (hb : b < 2 ^ (64 * w)) (ne : b ≠ 0)
    (enough : limbCount b ≤ limbCount a) :
    remAssign G (ofNat w a) (ofNat w b) =
      .ok (ofNat w (a / 2 ^ (64 * limbCount b) * 2 ^ (64 * limbCount b) + a % b)) := by
  rw [remAssign, size_ofNat ha, size_ofNat hb, if_neg (by omega),
    tdivQr_ofNat G ha hb ne enough, Exec.ok_bind]
  change Except.ok (normalizeSize ⟨_, (ofNat w a).limbs.write (limbCount b) (a % b)⟩) = _
  rw [Limbs.write, limbs_ofNat ha, Nat.mod_eq_of_lt (mod_lt_pow_limbCount ne), normalizeSize_eq]

theorem remAssign_of_limbCount_lt (ha : a < 2 ^ (64 * w)) (hb : b < 2 ^ (64 * w))
    (fewer : limbCount a < limbCount b) :
    remAssign G (ofNat w a) (ofNat w b) = .ok (ofNat w (a % b)) := by
  rw [remAssign, size_ofNat ha, size_ofNat hb, if_pos (by omega),
    Nat.mod_eq_of_lt (lt_of_limbCount_lt fewer)]
  rfl

/-! ## The Euclidean law -/

/-- Quotient and remainder take the dividend apart. -/
def Euclidean (x y : Uint w) : Prop :=
  ∃ q r, div G x y = .ok q ∧ rem G x y = .ok r ∧
    x.toNat = q.toNat * y.toNat + r.toNat ∧ r.toNat < y.toNat

theorem euclidean_ofNat_iff (ha : a < 2 ^ (64 * w)) (hb : b < 2 ^ (64 * w)) (ne : b ≠ 0) :
    Euclidean G (ofNat w a) (ofNat w b) ↔ a = 0 ∨ limbCount b ≤ limbCount a := by
  have below : a % b < b := Nat.mod_lt a (Nat.pos_of_ne_zero ne)
  have remainder := rem_ofNat G ha hb ne
  by_cases enough : limbCount b ≤ limbCount a
  · refine ⟨fun _ => Or.inr enough, fun _ => ?_⟩
    refine ⟨_, _, div_ofNat G ha hb ne enough, remainder, ?_, ?_⟩
    · rw [toNat_ofNat ha, toNat_ofNat ((Nat.div_le_self a b).trans_lt ha), toNat_ofNat hb,
        toNat_ofNat (below.trans hb), Nat.div_add_mod']
    · rwa [toNat_ofNat (below.trans hb), toNat_ofNat hb]
  · have quotient := div_of_limbCount_lt G ha hb (not_le.mp enough)
    have less : a < b := lt_of_limbCount_lt (not_le.mp enough)
    rw [or_iff_left enough]
    constructor
    · intro law
      obtain ⟨q, r, divided, rest, split, -⟩ := law
      cases quotient.symm.trans divided
      cases remainder.symm.trans rest
      rw [toNat_ofNat ha, toNat_ofNat hb, toNat_ofNat (below.trans hb),
        Nat.mod_eq_of_lt less] at split
      have product : a * b = 0 := by omega
      exact (Nat.mul_eq_zero.mp product).resolve_right ne
    · intro zero
      subst zero
      refine ⟨_, _, quotient, remainder, ?_, ?_⟩
      · rw [toNat_ofNat ha, Nat.zero_mul, Nat.zero_mod, toNat_ofNat ha]
      · rwa [toNat_ofNat (below.trans hb), toNat_ofNat hb]

/-- The Euclidean law holds exactly where the dividend is zero or the divisor does not
have more limbs; the remainder of a wide dividend is always right. -/
theorem euclidean_iff (G : Gmp) :
    (∀ {w : ℕ} (x y : Uint w), Normal x → Normal y → y.toNat ≠ 0 →
      (Euclidean G x y ↔ x.toNat = 0 ∨ y.size ≤ x.size)) ∧
    ∀ (x : U512) (y : U256), Normal x → Normal y → y.toNat ≠ 0 →
      ∃ r, remU256 G x y = .ok r ∧ Normal r ∧ r.toNat = x.toNat % y.toNat := by
  refine ⟨fun {w} x y hx hy ne => ?_, fun x y hx hy ne => ?_⟩
  · rw [hy.size_le_iff hx, ← euclidean_ofNat_iff G x.toNat_lt y.toNat_lt ne, ← hx.eq_ofNat,
      ← hy.eq_ofNat]
  · have below : x.toNat % y.toNat < y.toNat := Nat.mod_lt _ (Nat.pos_of_ne_zero ne)
    refine ⟨ofNat 4 (x.toNat % y.toNat), ?_, normal_ofNat 4 _, ?_⟩
    · rw [← remU256_ofNat G x.toNat_lt y.toNat_lt ne, ← hx.eq_ofNat, ← hy.eq_ofNat]
    · exact toNat_ofNat (below.trans y.toNat_lt)

/-- One divided by `2 ^ 64` is one. -/
theorem not_euclidean_one_div_limb :
    let x : U256 := fromU64 1
    let y : U256 := ofNat 4 (2 ^ 64)
    div Gmp.reference x y = .ok x ∧ rem Gmp.reference x y = .ok x ∧
      ¬ Euclidean Gmp.reference x y := by
  intro x y
  refine ⟨by decide, by decide, ?_⟩
  intro law
  obtain ⟨q, r, divided, rest, split, -⟩ := law
  cases divided
  cases rest
  exact absurd split (by decide)

/-! ## The remainder in place -/

/-- Both remainders return, and return the same value. -/
def RemaindersAgree (x y : Uint w) : Prop :=
  ∃ r, remAssign G x y = .ok r ∧ rem G x y = .ok r

theorem remaindersAgree_ofNat_iff (ha : a < 2 ^ (64 * w)) (hb : b < 2 ^ (64 * w)) (ne : b ≠ 0) :
    RemaindersAgree G (ofNat w a) (ofNat w b) ↔ limbCount a ≤ limbCount b := by
  have below : a % b < b := Nat.mod_lt a (Nat.pos_of_ne_zero ne)
  have remainder := rem_ofNat G ha hb ne
  by_cases fewer : limbCount a < limbCount b
  · refine ⟨fun _ => fewer.le, fun _ => ⟨_, ?_, remainder⟩⟩
    exact remAssign_of_limbCount_lt G ha hb fewer
  · have inPlace := remAssign_ofNat G ha hb ne (not_lt.mp fewer)
    rw [limbCount_le_iff]
    constructor
    · intro agree
      obtain ⟨r, assigned, rest⟩ := agree
      cases remainder.symm.trans rest
      have limbs := congrArg toNat (Except.ok.inj (inPlace.symm.trans assigned))
      -- what stays of the dividend is a multiple of the width and smaller than it
      have kept := Nat.div_mul_le_self a (2 ^ (64 * limbCount b))
      change (BitVec.ofNat (64 * w) _).toNat = _ at limbs
      rw [BitVec.toNat_ofNat, toNat_ofNat (below.trans hb)] at limbs
      have upperZero : a / 2 ^ (64 * limbCount b) * 2 ^ (64 * limbCount b) = 0 := by
        generalize a / 2 ^ (64 * limbCount b) * 2 ^ (64 * limbCount b) = upper at limbs kept ⊢
        by_cases fits : upper + a % b < 2 ^ (64 * w)
        · rw [Nat.mod_eq_of_lt fits] at limbs
          omega
        · rw [Nat.mod_eq_sub_mod (not_lt.mp fits), Nat.mod_eq_of_lt (by omega)] at limbs
          omega
      have quotient := (Nat.mul_eq_zero.mp upperZero).resolve_right (Nat.two_pow_pos _).ne'
      exact (Nat.div_eq_zero_iff_lt (Nat.two_pow_pos _)).mp quotient
    · intro small
      refine ⟨_, inPlace, ?_⟩
      rw [remainder, Nat.div_eq_of_lt small, Nat.zero_mul, Nat.zero_add]

/-- The two remainders agree exactly where the dividend does not have more limbs than
the divisor. -/
theorem remAssign_eq_rem_iff (G : Gmp) {w : ℕ} (x y : Uint w) (hx : Normal x) (hy : Normal y)
    (ne : y.toNat ≠ 0) : RemaindersAgree G x y ↔ x.size ≤ y.size := by
  rw [hx.size_le_iff hy, ← remaindersAgree_ofNat_iff G x.toNat_lt y.toNat_lt ne, ← hx.eq_ofNat,
    ← hy.eq_ofNat]

theorem remAssign_eq_rem_iff_five_three :
    RemaindersAgree Gmp.reference (fromU64 5 : U256) (fromU64 3) ↔
      (fromU64 5 : U256).size ≤ (fromU64 3 : U256).size :=
  remAssign_eq_rem_iff Gmp.reference (fromU64 5) (fromU64 3) (normal_ofNat 4 5) (normal_ofNat 4 3)
    (by decide)

/-- `2 ^ 64 + 5` modulo three, in place: the second limb stays. -/
theorem remAssign_limb_ne_rem :
    let x : U256 := ofNat 4 (2 ^ 64 + 5)
    let y : U256 := fromU64 3
    remAssign Gmp.reference x y = .ok (ofNat 4 (2 ^ 64)) ∧
      rem Gmp.reference x y = .ok (ofNat 4 0) ∧ ¬ RemaindersAgree Gmp.reference x y := by
  intro x y
  have inPlace : remAssign Gmp.reference x y = .ok (ofNat 4 (2 ^ 64)) := by decide
  have byValue : rem Gmp.reference x y = .ok (ofNat 4 0) := by decide
  refine ⟨inPlace, byValue, ?_⟩
  intro agree
  obtain ⟨r, assigned, rest⟩ := agree
  have same := Except.ok.inj ((inPlace.symm.trans assigned).trans (rest.symm.trans byValue))
  exact absurd same (by decide)

end Uint

end GroupAccumulator
