import GroupAccumulator.Uint

/-!
# Fixed-width integers and their numbers

`ofNat` is the value whose size is the limb count of its number, `Normal` says that a
value is one of these.  Each operation the primality test uses is computed here on
such values, in terms of the numbers; the later proofs know the operations by these
lemmas only.
-/

namespace GroupAccumulator

open Theory

namespace Uint

variable {w a b n : ℕ}

/-- The value of `n`, with the size of `n`. -/
def ofNat (w n : ℕ) : Uint w := fromLimbs (BitVec.ofNat (64 * w) n)

/-- The size counts the limbs up to the highest one that is not zero. -/
def Normal (x : Uint w) : Prop := x.size = x.limbs.significant w

/-- The number a value holds. -/
def toNat (x : Uint w) : ℕ := x.limbs.toNat

theorem toNat_lt (x : Uint w) : x.toNat < 2 ^ (64 * w) := x.limbs.isLt

theorem Normal.eq_ofNat {x : Uint w} (normal : Normal x) : x = ofNat w x.toNat := by
  rcases x with ⟨size, limbs⟩
  obtain rfl : size = limbs.significant w := normal
  unfold ofNat toNat
  rw [BitVec.ofNat_toNat, BitVec.setWidth_eq]
  rfl

/-- What is normalized is the value of its limbs. -/
theorem normalizeSize_eq (size : ℤ) (n : ℕ) :
    normalizeSize ⟨size, BitVec.ofNat (64 * w) n⟩ = ofNat w n := rfl

theorem normal_ofNat (w n : ℕ) : Normal (ofNat w n) := rfl

/-! ## Views of a value -/

theorem toNat_ofNat (hn : n < 2 ^ (64 * w)) : (ofNat w n).toNat = n := by
  change (BitVec.ofNat (64 * w) n).toNat = n
  rw [BitVec.toNat_ofNat, Nat.mod_eq_of_lt hn]

theorem limbs_ofNat (hn : n < 2 ^ (64 * w)) : (ofNat w n).limbs.toNat = n := toNat_ofNat hn

theorem size_ofNat (hn : n < 2 ^ (64 * w)) : (ofNat w n).size = limbCount n := by
  change (((ofNat w n).limbs.significant w : ℕ) : ℤ) = _
  rw [Limbs.significant_eq, Limbs.low_self]
  exact congrArg (fun m : ℕ => (limbCount m : ℤ)) (toNat_ofNat hn)

theorem ofNat_inj (ha : a < 2 ^ (64 * w)) (hb : b < 2 ^ (64 * w)) :
    ofNat w a = ofNat w b ↔ a = b := by
  refine ⟨fun same => ?_, congrArg (ofNat w)⟩
  rw [← toNat_ofNat ha, ← toNat_ofNat hb, same]

/-- The counted limbs hold the whole number. -/
theorem low_ofNat (hn : n < 2 ^ (64 * w)) : (ofNat w n).limbs.low (limbCount n) = n := by
  change (ofNat w n).toNat % 2 ^ (64 * limbCount n) = n
  rw [toNat_ofNat hn, Nat.mod_eq_of_lt (lt_pow_limbCount n)]

theorem data_ofNat (hn : n < 2 ^ (64 * w)) : (ofNat w n).data = n := by
  rw [data, size_ofNat hn, Int.toNat_natCast, low_ofNat hn]

theorem asMpz_ofNat (hn : n < 2 ^ (64 * w)) : (ofNat w n).asMpz = n := by
  rw [asMpz, size_ofNat hn, Int.natAbs_natCast, low_ofNat hn]
  rcases Nat.eq_zero_or_pos n with rfl | positive
  · simp
  · have counted : limbCount n ≠ 0 := limbCount_eq_zero_iff.not.mpr positive.ne'
    rw [Int.sign_eq_one_of_pos (by omega), one_mul]

/-- A number that fits, stored with its size and nothing above it, is its value. -/
theorem ofMpz_limbCount (hn : n < 2 ^ (64 * w)) :
    (ofMpz ((limbCount n : ℤ), n) : Uint w) = ofNat w n := by
  rw [ofMpz, ← size_ofNat hn]
  rfl

theorem write_zero {k : ℕ} (fits : n < 2 ^ (64 * k)) :
    (zero : Uint w).limbs.write k n = BitVec.ofNat (64 * w) n := by
  have empty : (zero : Uint w).limbs.toNat = 0 := by simp [zero]
  rw [Limbs.write, empty, Nat.zero_div, Nat.zero_mul, Nat.zero_add, Nat.mod_eq_of_lt fits]

theorem fromU64_eq (u : UInt64) : (fromU64 u : Uint w) = ofNat w u.toNat := rfl

/-- The lowest limb. -/
theorem limb_zero_ofNat (hn : n < 2 ^ (64 * w)) :
    ((ofNat w n).limbs.limb 0).toNat = n % 2 ^ 64 := by
  rw [Limbs.limb_toNat, limbs_ofNat hn, Nat.mul_zero, pow_zero, Nat.div_one]

/-! ## Comparison -/

theorem eqU64_ofNat (hn : n < 2 ^ (64 * w)) (u : UInt64) :
    eqU64 (ofNat w n) u = decide (n = u.toNat) := by
  have noLimbs : limbCount n = 0 ↔ n = 0 := limbCount_eq_zero_iff
  have single : limbCount n ≤ 1 ↔ n < 2 ^ (64 * 1) := limbCount_le_iff
  have word : u.toNat < 2 ^ 64 := u.toNat_lt
  have empty : u = 0 ↔ u.toNat = 0 := UInt64.toNat_inj.symm
  rw [Bool.eq_iff_iff, eqU64, size_ofNat hn, limb_zero_ofNat hn]
  simp only [Bool.or_eq_true, Bool.and_eq_true, decide_eq_true_eq, empty]
  omega

theorem isOdd_ofNat (hn : n < 2 ^ (64 * w)) : isOdd (ofNat w n) = decide (n % 2 = 1) := by
  rw [isOdd, BitVec.getLsbD, limb_zero_ofNat hn, Nat.testBit_zero]
  congr 1
  rw [eq_iff_iff]
  omega

variable (G : Gmp)

theorem cmp_gt_ofNat (ha : a < 2 ^ (64 * w)) (hb : b < 2 ^ (64 * w)) :
    cmp G (ofNat w a) (ofNat w b) = .gt ↔ b < a := by
  have neg := G.cmp_neg ha hb
  have zero := G.cmp_zero ha hb
  simp only [cmp, limbs_ofNat ha, limbs_ofNat hb, neg, zero]
  split_ifs <;> simp <;> omega

/-! ## Bounds of both widths -/

theorem lt_of_lt_half (ha : a < 2 ^ (64 * 4)) : a < 2 ^ (64 * 8) :=
  lt_pow_of_limbs_le (by omega) ha

/-- Products of two values fit twice the width. -/
theorem mul_lt_wide (ha : a < 2 ^ (64 * 4)) (hb : b < 2 ^ (64 * 4)) : a * b < 2 ^ (64 * 8) :=
  calc a * b < 2 ^ (64 * 4) * 2 ^ (64 * 4) := Nat.mul_lt_mul'' ha hb
    _ = 2 ^ (64 * 8) := by rw [← pow_add]

theorem add_lt_wide (ha : a < 2 ^ (64 * 4)) (hb : b < 2 ^ (64 * 4)) : a + b < 2 ^ (64 * 8) := by
  have next : a + b < 2 ^ (64 * 5) := by omega
  exact lt_pow_of_limbs_le (by omega) next

/-! ## Arithmetic -/

theorem add_ofNat (fits : a + b < 2 ^ (64 * w)) :
    add G (ofNat w a) (ofNat w b) = .ok (ofNat w (a + b)) := by
  have ha : a < 2 ^ (64 * w) := by omega
  have hb : b < 2 ^ (64 * w) := by omega
  simp only [add, limbs_ofNat ha, limbs_ofNat hb, G.add_eq ha hb, Nat.mod_eq_of_lt fits,
    Nat.div_eq_of_lt fits]
  rfl

theorem sub_ofNat (ha : a < 2 ^ (64 * w)) (le : b ≤ a) :
    sub G (ofNat w a) (ofNat w b) = .ok (ofNat w (a - b)) := by
  have hb : b < 2 ^ (64 * w) := by omega
  have difference : (2 ^ (64 * w) + a - b) % 2 ^ (64 * w) = a - b := by
    rw [Nat.add_sub_assoc le, Nat.add_mod_left, Nat.mod_eq_of_lt (by omega)]
  simp only [sub, limbs_ofNat ha, limbs_ofNat hb, G.sub_eq ha hb, difference,
    if_neg (not_lt.mpr le)]
  rfl

theorem mul_ofNat (ha : a < 2 ^ (64 * 4)) (hb : b < 2 ^ (64 * 4)) :
    mul G (ofNat 4 a) (ofNat 4 b) = ofNat 8 (a * b) := by
  rw [mul, limbs_ofNat ha, limbs_ofNat hb, G.mul_eq ha hb]
  rfl

/-- A dividend with at least the divisor's limbs is divided. -/
theorem tdivQr_ofNat {w' : ℕ} (ha : a < 2 ^ (64 * w)) (hb : b < 2 ^ (64 * w')) (ne : b ≠ 0)
    (le : limbCount b ≤ limbCount a) :
    tdivQr G (ofNat w a) (ofNat w' b) = .ok (a / b, a % b) := by
  have counted : ((limbCount b : ℕ) : ℤ) ≠ 0 := by
    exact_mod_cast limbCount_eq_zero_iff.not.mpr ne
  rw [tdivQr, size_ofNat ha, size_ofNat hb, if_neg counted, data_ofNat ha, data_ofNat hb,
    Int.toNat_natCast, Int.toNat_natCast, G.tdivQr_eq le (lt_pow_limbCount a) ne rfl]

/-- A dividend with fewer limbs than the divisor is its own remainder. -/
theorem lt_of_limbCount_lt (fewer : limbCount a < limbCount b) : a < b := by
  by_contra ge
  exact absurd (limbCount_mono (not_lt.mp ge)) (not_le.mpr fewer)

/-- A remainder fits the limbs of its divisor. -/
theorem mod_lt_pow_limbCount (ne : b ≠ 0) : a % b < 2 ^ (64 * limbCount b) :=
  (Nat.mod_lt a (Nat.pos_of_ne_zero ne)).trans (lt_pow_limbCount b)

theorem rem_ofNat (ha : a < 2 ^ (64 * w)) (hb : b < 2 ^ (64 * w)) (ne : b ≠ 0) :
    rem G (ofNat w a) (ofNat w b) = .ok (ofNat w (a % b)) := by
  rw [rem, size_ofNat ha, size_ofNat hb]
  split
  next fewer =>
    rw [Nat.mod_eq_of_lt (lt_of_limbCount_lt (by omega))]
    rfl
  next enough =>
    rw [tdivQr_ofNat G ha hb ne (by omega), Exec.ok_bind]
    change Except.ok (normalizeSize ⟨_, (zero : Uint w).limbs.write (limbCount b) (a % b)⟩) = _
    rw [write_zero (mod_lt_pow_limbCount ne), normalizeSize_eq]

theorem lowU256_ofNat (ha : a < 2 ^ (64 * 8)) : lowU256 (ofNat 8 a) = ofNat 4 a := by
  have limbs : (ofNat 8 a).limbs.setWidth (64 * 4) = BitVec.ofNat (64 * 4) a := by
    apply BitVec.eq_of_toNat_eq
    rw [BitVec.toNat_setWidth, limbs_ofNat ha, BitVec.toNat_ofNat]
  rw [lowU256, limbs, normalizeSize_eq]

theorem toU512_ofNat (ha : a < 2 ^ (64 * 4)) : toU512 (ofNat 4 a) = ofNat 8 a := by
  have wide : a < 2 ^ (64 * 8) := lt_of_lt_half ha
  have size : (toU512 (ofNat 4 a)).size = (ofNat 8 a).size :=
    (size_ofNat ha).trans (size_ofNat wide).symm
  have limbs : (toU512 (ofNat 4 a)).limbs = (ofNat 8 a).limbs := by
    apply BitVec.eq_of_toNat_eq
    rw [limbs_ofNat wide, toU512, BitVec.toNat_setWidth_of_le (by omega), limbs_ofNat ha]
  calc toU512 (ofNat 4 a) = ⟨(toU512 (ofNat 4 a)).size, (toU512 (ofNat 4 a)).limbs⟩ := rfl
    _ = ofNat 8 a := by rw [size, limbs]

theorem remU256_ofNat (ha : a < 2 ^ (64 * 8)) (hb : b < 2 ^ (64 * 4)) (ne : b ≠ 0) :
    remU256 G (ofNat 8 a) (ofNat 4 b) = .ok (ofNat 4 (a % b)) := by
  rw [remU256, size_ofNat ha, size_ofNat hb]
  split
  next fewer =>
    rw [Nat.mod_eq_of_lt (lt_of_limbCount_lt (by omega)), lowU256_ofNat ha]
    rfl
  next enough =>
    rw [tdivQr_ofNat G ha hb ne (by omega), Exec.ok_bind]
    change Except.ok (normalizeSize ⟨_, (zero : U256).limbs.write (limbCount b) (a % b)⟩) = _
    rw [write_zero (mod_lt_pow_limbCount ne), normalizeSize_eq]

/-- Shifts by less than a limb are one call. -/
theorem shl_ofNat (ha : a < 2 ^ (64 * w)) {k : ℕ} (positive : 1 ≤ k) (small : k ≤ 63) :
    shl G (ofNat w a) k = ofNat w (a * 2 ^ k % 2 ^ (64 * w)) := by
  have loop : shlLoop G (ofNat w a).limbs k =
      BitVec.ofNat (64 * w) (a * 2 ^ k % 2 ^ (64 * w)) := by
    rw [shlLoop, dif_pos (by omega), shlLoop, dif_neg (by omega), limbs_ofNat ha,
      Nat.min_eq_right (by omega), G.lshift_eq ha positive small]
  rw [shl, loop, normalizeSize_eq]

theorem shr_ofNat (ha : a < 2 ^ (64 * w)) {k : ℕ} (positive : 1 ≤ k) (small : k ≤ 63) :
    shr G (ofNat w a) k = ofNat w (a / 2 ^ k) := by
  have loop : shrLoop G (ofNat w a).limbs k = BitVec.ofNat (64 * w) (a / 2 ^ k) := by
    rw [shrLoop, dif_pos (by omega), shrLoop, dif_neg (by omega), limbs_ofNat ha,
      Nat.min_eq_right (by omega), G.rshift_eq ha positive small]
  rw [shr, loop, normalizeSize_eq]

/-! ## Number theory -/

/-- Left out is the exponent zero modulo one, where GMP leaves a limb behind. -/
theorem powMod_ofNat {e m : ℕ} (ha : a < 2 ^ (64 * w)) (he : e < 2 ^ (64 * w))
    (hm : m < 2 ^ (64 * w)) (ne : m ≠ 0) (known : e ≠ 0 ∨ m ≠ 1) :
    powMod G (ofNat w a) (ofNat w e) (ofNat w m) = .ok (ofNat w (a ^ e % m)) := by
  have ne' : (m : ℤ) ≠ 0 := by exact_mod_cast ne
  have positive : |(m : ℤ)| = m := abs_of_nonneg (Nat.cast_nonneg m)
  have value : ((a : ℤ) ^ e % |(m : ℤ)|).natAbs = a ^ e % m := by
    rw [positive]
    exact_mod_cast Int.natAbs_natCast (a ^ e % m)
  have known' : e ≠ 0 ∨ |(m : ℤ)| ≠ 1 := by
    rw [positive]
    exact_mod_cast known
  have stored : G.mpzPowm a e m = ((limbCount (a ^ e % m) : ℤ), a ^ e % m) := by
    rw [← value]
    exact Prod.ext (G.powm_size ne') (G.powm_eq ne' known')
  have fits : a ^ e % m < 2 ^ (64 * w) := (Nat.mod_lt _ (Nat.pos_of_ne_zero ne)).trans hm
  rw [powMod, asMpz_ofNat ha, asMpz_ofNat he, asMpz_ofNat hm, if_neg ne', stored,
    ofMpz_limbCount fits]

theorem isPerfectSquare_ofNat (ha : a < 2 ^ (64 * w)) (ne : a ≠ 0) :
    isPerfectSquare G (ofNat w a) = true ↔ IsSquare a := by
  rw [isPerfectSquare, data_ofNat ha, decide_eq_true_eq]
  exact G.perfectSquareP_ne_zero ne

theorem jacobi_ofNat (ha : a < 2 ^ (64 * w)) (odd : a % 2 = 1) (i : ℤ) :
    jacobi G i (ofNat w a) = jacobiSym i a := by
  rw [jacobi, asMpz_ofNat ha, G.jacobi_eq odd]

theorem isCongruent_ofNat (ha : a < 2 ^ (64 * w)) (hn : n < 2 ^ (64 * w)) (i : ℤ) :
    isCongruent G (ofNat w a) i (ofNat w n) = true ↔ (n : ℤ) ∣ a - i := by
  rw [isCongruent, asMpz_ofNat ha, asMpz_ofNat hn, decide_eq_true_eq]
  exact G.congruentP_ne_zero

theorem isDivisibleU_ofNat (ha : a < 2 ^ (64 * w)) (u : UInt64) :
    isDivisibleU G (ofNat w a) u = true ↔ u.toNat ∣ a := by
  rw [isDivisibleU, asMpz_ofNat ha, decide_eq_true_eq, ← Int.natCast_dvd_natCast]
  exact G.divisibleUiP_ne_zero

/-- The binary digits, most significant first. -/
def bits (n : ℕ) : List UInt8 := (Nat.digits 2 n).reverse.map UInt8.ofNat

theorem writeBinary_ofNat (ha : a < 2 ^ (64 * w)) (ne : a ≠ 0) {buf : List UInt8}
    (fits : 64 * w ≤ buf.length) :
    writeBinary G (ofNat w a) buf =
      .ok (bits a ++ buf.drop (bits a).length, (bits a).length) := by
  have short : (bits a).length ≤ buf.length := by
    rw [bits, List.length_map, List.length_reverse, Nat.digits_length_le_iff one_lt_two]
    exact ha.trans_le (Nat.pow_le_pow_right Nat.two_pos fits)
  rw [writeBinary, data_ofNat ha, G.getStr_two ne]
  exact if_pos short

/-- The twos are removed completely. -/
theorem removeFactor_two (ha : a < 2 ^ (64 * 4)) :
    ∃ d r, removeFactor G (ofNat 4 a) (ofNat 4 2) = .ok (ofNat 4 d, r) ∧
      (a ≠ 0 → a = d * 2 ^ r ∧ ¬ 2 ∣ d) := by
  obtain ⟨d, r, removed, split⟩ := G.remove_two a
  have two : (ofNat 4 2).asMpz = 2 := asMpz_ofNat (by norm_num)
  have lower : lowU256 (ofMpz ((limbCount d : ℤ), d)) = ofNat 4 d := by
    have limbs : (BitVec.ofNat (64 * 8) d).setWidth (64 * 4) = BitVec.ofNat (64 * 4) d := by
      rw [BitVec.setWidth_ofNat_of_le (by omega)]
    rw [lowU256, ofMpz, limbs, normalizeSize_eq]
  refine ⟨d, r, ?_, split⟩
  rw [removeFactor, two, if_neg (by decide), asMpz_ofNat ha, removed]
  simp only [lower]

end Uint

end GroupAccumulator
