import GroupAccumulator.Theory.LucasSequence
import GroupAccumulator.Primality
import GroupAccumulator.UintValue

/-!
# The Lucas sequences, as computed

`compute_lucas_sequences` keeps its values modulo `n`, some of them reduced and some
with `n` in the place of zero: `subModN` and `iModN` return `n` for a difference that
vanishes.  `Residue` allows that, `Reduced` does not.  No step overflows for values of
either kind, and from one binary digit of the target to the next the index of the
sequences doubles, plus the digit (`lucasLoop_spec`).
-/

namespace GroupAccumulator

open Theory

namespace Primality

open Uint

/-- `x` holds a number up to `n` in the class of `r`. -/
def Residue (n : ℕ) (x : U256) (r : ZMod n) : Prop :=
  ∃ c ≤ n, x = ofNat 4 c ∧ (c : ZMod n) = r

/-- `x` holds the least number in the class of `r`. -/
def Reduced (n : ℕ) (x : U256) (r : ZMod n) : Prop :=
  ∃ c < n, x = ofNat 4 c ∧ (c : ZMod n) = r

theorem Reduced.residue {n : ℕ} {x : U256} {r : ZMod n} (reduced : Reduced n x r) :
    Residue n x r := by
  obtain ⟨c, lt, value, cast⟩ := reduced
  exact ⟨c, lt.le, value, cast⟩

/-! ## One operation modulo `n` -/

section

variable (G : Gmp) {n : ℕ} {x y z : U256} {r s t : ZMod n}

/-- A reduction of a wide number. -/
theorem rem_wide (hn : n < 2 ^ (64 * 4)) (ne : n ≠ 0) {a : ℕ} (ha : a < 2 ^ (64 * 8)) :
    ∃ z, remU256 G (ofNat 8 a) (ofNat 4 n) = .ok z ∧ Reduced n z a :=
  ⟨ofNat 4 (a % n), remU256_ofNat G ha hn ne, a % n, Nat.mod_lt a (Nat.pos_of_ne_zero ne), rfl,
    ZMod.natCast_mod a n⟩

theorem mul_rem (hn : n < 2 ^ (64 * 4)) (ne : n ≠ 0) (hx : Residue n x r) (hy : Residue n y s) :
    ∃ z, remU256 G (mul G x y) (ofNat 4 n) = .ok z ∧ Reduced n z (r * s) := by
  obtain ⟨a, ha, rfl, rfl⟩ := hx
  obtain ⟨b, hb, rfl, rfl⟩ := hy
  have ha' := ha.trans_lt hn
  have hb' := hb.trans_lt hn
  rw [mul_ofNat G ha' hb', ← Nat.cast_mul]
  exact rem_wide G hn ne (mul_lt_wide ha' hb')

theorem add_rem (hn : n < 2 ^ (64 * 4)) (ne : n ≠ 0) (hx : Residue n x r) (hy : Residue n y s) :
    ∃ z, (do remU256 G (← add G (toU512 x) (toU512 y)) (ofNat 4 n)) = .ok z ∧
      Reduced n z (r + s) := by
  obtain ⟨a, ha, rfl, rfl⟩ := hx
  obtain ⟨b, hb, rfl, rfl⟩ := hy
  have fits : a + b < 2 ^ (64 * 8) := add_lt_wide (ha.trans_lt hn) (hb.trans_lt hn)
  rw [toU512_ofNat (ha.trans_lt hn), toU512_ofNat (hb.trans_lt hn), add_ofNat G fits,
    Exec.ok_bind, ← Nat.cast_add]
  exact rem_wide G hn ne fits

theorem mul_add_rem (hn : n < 2 ^ (64 * 4)) (ne : n ≠ 0) (hx : Residue n x r)
    (hy : Reduced n y s) (hz : Residue n z t) :
    ∃ e, (do remU256 G (← add G (mul G x y) (toU512 z)) (ofNat 4 n)) = .ok e ∧
      Reduced n e (r * s + t) := by
  obtain ⟨a, ha, rfl, rfl⟩ := hx
  obtain ⟨b, hb, rfl, rfl⟩ := hy
  obtain ⟨c, hc, rfl, rfl⟩ := hz
  have fits : a * b + c < 2 ^ (64 * 8) := by
    calc a * b + c ≤ n * b + n := Nat.add_le_add (Nat.mul_le_mul_right b ha) hc
      _ = n * (b + 1) := (Nat.mul_succ n b).symm
      _ ≤ n * n := Nat.mul_le_mul_left n hb
      _ < 2 ^ (64 * 8) := mul_lt_wide hn hn
  rw [mul_ofNat G (ha.trans_lt hn) (hb.trans hn), toU512_ofNat (hc.trans_lt hn), add_ofNat G fits,
    Exec.ok_bind, ← Nat.cast_mul, ← Nat.cast_add]
  exact rem_wide G hn ne fits

/-- A difference that vanishes leaves `n`. -/
theorem subModN_spec (hn : n < 2 ^ (64 * 4)) (ne : n ≠ 0) {a b : ℕ} (ha : a < 2 ^ (64 * 8))
    (hb : b < 2 ^ (64 * 8)) :
    ∃ z, subModN G (ofNat 4 n) (ofNat 8 a) (ofNat 8 b) = .ok z ∧ Residue n z (a - b) := by
  unfold subModN
  split
  next greater =>
    rw [cmp_gt_ofNat G ha hb] at greater
    rw [sub_ofNat G ha greater.le, Exec.ok_bind, ← Nat.cast_sub greater.le]
    obtain ⟨z, run, hz⟩ := rem_wide G hn ne ((Nat.sub_le a b).trans_lt ha)
    exact ⟨z, run, hz.residue⟩
  next less =>
    rw [cmp_gt_ofNat G ha hb, not_lt] at less
    have small : (b - a) % n ≤ n := (Nat.mod_lt _ (Nat.pos_of_ne_zero ne)).le
    rw [sub_ofNat G hb less, Exec.ok_bind,
      remU256_ofNat G ((Nat.sub_le b a).trans_lt hb) hn ne, Exec.ok_bind, sub_ofNat G hn small]
    refine ⟨_, rfl, n - (b - a) % n, Nat.sub_le _ _, rfl, ?_⟩
    rw [Nat.cast_sub small, ZMod.natCast_self, ZMod.natCast_mod, Nat.cast_sub less]
    ring

/-- A value whose double is the one given. -/
theorem half_spec (hn : n < 2 ^ (64 * 4)) (odd : n % 2 = 1) (hx : Reduced n x r) :
    ∃ z t, half G (ofNat 4 n) x = .ok z ∧ Reduced n z t ∧ 2 * t = r := by
  obtain ⟨c, hc, rfl, rfl⟩ := hx
  have hc' := hc.trans hn
  unfold half
  rw [isOdd_ofNat hc']
  split
  next isOdd =>
    have oddC := of_decide_eq_true isOdd
    have value : c / 2 ^ 1 + n / 2 ^ 1 + 1 = (c + n) / 2 := by omega
    rw [shr_ofNat G hc' le_rfl (by omega), shr_ofNat G hn le_rfl (by omega),
      add_ofNat G (by omega), Exec.ok_bind, addU64, fromU64_eq, UInt64.toNat_one,
      add_ofNat G (by omega), value]
    refine ⟨_, _, rfl, ⟨(c + n) / 2, by omega, rfl, rfl⟩, ?_⟩
    have double : 2 * ((c + n) / 2) = c + n := by omega
    have cast := congrArg (Nat.cast : ℕ → ZMod n) double
    rwa [Nat.cast_mul, Nat.cast_add, ZMod.natCast_self, add_zero] at cast
  next isEven =>
    have evenC : c % 2 ≠ 1 := fun odd => isEven (decide_eq_true odd)
    rw [shr_ofNat G hc' le_rfl (by omega)]
    refine ⟨_, _, rfl, ⟨c / 2 ^ 1, by omega, rfl, rfl⟩, ?_⟩
    have double : 2 * (c / 2 ^ 1) = c := by omega
    have cast := congrArg (Nat.cast : ℕ → ZMod n) double
    rwa [Nat.cast_mul] at cast

/-- A parameter of one word modulo `n`. -/
theorem iModN_spec (hn : n < 2 ^ (64 * 4)) (ne : n ≠ 0) {i : ℤ} (word : i.natAbs < 2 ^ 64) :
    ∃ z, iModN G (ofNat 4 n) i = .ok z ∧ Residue n z i := by
  have wide : i.natAbs < 2 ^ (64 * 4) := word.trans (by norm_num)
  have value : (UInt64.ofNat i.natAbs).toNat = i.natAbs := by
    rw [UInt64.toNat_ofNat', Nat.mod_eq_of_lt word]
  have small : i.natAbs % n ≤ n := (Nat.mod_lt _ (Nat.pos_of_ne_zero ne)).le
  unfold iModN
  rw [fromU64_eq, value, rem_ofNat G wide hn ne]
  split
  next negative =>
    rw [Exec.ok_bind, sub_ofNat G hn small]
    refine ⟨_, rfl, n - i.natAbs % n, Nat.sub_le _ _, rfl, ?_⟩
    have sign : ((i.natAbs : ℤ) : ZMod n) = -(i : ZMod n) := by
      rw [Int.ofNat_natAbs_of_nonpos negative.le, Int.cast_neg]
    rw [Nat.cast_sub small, ZMod.natCast_self, ZMod.natCast_mod, ← Int.cast_natCast, sign]
    ring
  next nonneg =>
    refine ⟨_, rfl, i.natAbs % n, small, rfl, ?_⟩
    rw [ZMod.natCast_mod, ← Int.cast_natCast, Int.natAbs_of_nonneg (not_lt.mp nonneg)]

end

/-! ## The loop -/

/-- The index reached from `k` by doubling along binary digits. -/
def index (k : ℕ) (bits : List UInt8) : ℕ :=
  bits.foldl (fun k bit => 2 * k + if bit = 1 then 1 else 0) k

/-- The loop's values are those of the sequences at index `k`. -/
structure AtIndex (n : ℕ) (Q : ZMod n) (k : ℕ) (u v q : U256) : Prop where
  u : Reduced n u (lucasU 1 Q k)
  v : Residue n v (lucasV 1 Q k)
  q : Residue n q (Q ^ k)

section

variable (G : Gmp) {n k : ℕ} {Q : ZMod n} {u v q q0 d w : U256}

theorem two_mul_cancel (odd : n % 2 = 1) {r s : ZMod n} (same : 2 * r = 2 * s) : r = s := by
  have unit : IsUnit ((2 : ℕ) : ZMod n) := by
    rw [ZMod.isUnit_iff_coprime, Nat.coprime_two_left]
    exact Nat.odd_iff.mpr odd
  exact unit.mul_left_cancel (by exact_mod_cast same)

/-- Twice a wide copy of a residue. -/
theorem shl_toU512 (hn : n < 2 ^ (64 * 4)) {c : ℕ} (hc : c ≤ n) :
    shl G (toU512 (ofNat 4 c)) 1 = ofNat 8 (c * 2) ∧ c * 2 < 2 ^ (64 * 8) := by
  have narrow := hc.trans_lt hn
  have fits : c * 2 < 2 ^ (64 * 8) := mul_lt_wide narrow (by norm_num)
  rw [toU512_ofNat narrow, shl_ofNat G (lt_of_lt_half narrow) le_rfl (by omega), pow_one,
    Nat.mod_eq_of_lt fits]
  exact ⟨rfl, fits⟩

/-- `v² - 2 q`. -/
theorem sub_rem (hn : n < 2 ^ (64 * 4)) (ne : n ≠ 0) {r s : ZMod n} (hv : Residue n v r)
    (hq : Residue n q s) :
    ∃ z, subModN G (ofNat 4 n) (mul G v v) (shl G (toU512 q) 1) = .ok z ∧
      Residue n z (r ^ 2 - 2 * s) := by
  obtain ⟨b, hb, rfl, rfl⟩ := hv
  obtain ⟨c, hc, rfl, rfl⟩ := hq
  obtain ⟨double, fits⟩ := shl_toU512 G hn hc
  have narrow := hb.trans_lt hn
  obtain ⟨z, run, hz⟩ := subModN_spec G hn ne (mul_lt_wide narrow narrow) fits
  refine ⟨z, ?_, ?_⟩
  · rw [mul_ofNat G narrow narrow, double, run]
  · rwa [Nat.cast_mul, Nat.cast_mul, Nat.cast_two, ← sq, mul_comm (c : ZMod n)] at hz

/-- One digit doubles the index and adds itself. -/
theorem lucasLoop_cons (hn : n < 2 ^ (64 * 4)) (odd : n % 2 = 1) (hq0 : Residue n q0 Q)
    (hd : Residue n d (1 - 4 * Q)) (state : AtIndex n Q k u v q) (bit : UInt8)
    (bits : List UInt8) :
    ∃ u' v' q', AtIndex n Q (index k [bit]) u' v' q' ∧
      lucasLoop G (ofNat 4 n) q0 d (bit :: bits) u v q w =
        lucasLoop G (ofNat 4 n) q0 d bits u' v' q' q := by
  have ne : n ≠ 0 := by omega
  obtain ⟨u₂, runU, hu₂⟩ := mul_rem G hn ne state.u.residue state.v
  obtain ⟨v₂, runV, hv₂⟩ := sub_rem G hn ne state.v state.q
  obtain ⟨q₂, runQ, hq₂⟩ := mul_rem G hn ne state.q state.q
  rw [← lucasU_two_mul] at hu₂
  rw [← lucasV_two_mul] at hv₂
  rw [← sq, ← pow_mul, mul_comm k] at hq₂
  by_cases one : bit = 1
  · obtain ⟨s, runS, hs⟩ := add_rem G hn ne hu₂.residue hv₂
    obtain ⟨u₃, r, runU₃, hu₃, doubleU⟩ := half_spec G hn odd hs
    obtain ⟨t, runT, ht⟩ := mul_add_rem G hn ne hd hu₂ hv₂
    obtain ⟨v₃, r', runV₃, hv₃, doubleV⟩ := half_spec G hn odd ht
    obtain ⟨q₃, runQ₃, hq₃⟩ := mul_rem G hn ne hq₂.residue hq0
    obtain ⟨sum, runSum, runS⟩ := Exec.bind_eq_ok runS
    obtain ⟨sum', runSum', runT⟩ := Exec.bind_eq_ok runT
    have hr : r = lucasU 1 Q (2 * k + 1) := by
      apply two_mul_cancel odd
      rw [doubleU, two_mul_lucasU_succ, one_mul]
    have hr' : r' = lucasV 1 Q (2 * k + 1) := by
      apply two_mul_cancel odd
      rw [doubleV, two_mul_lucasV_succ, one_pow, one_mul]
    rw [hr] at hu₃
    rw [hr'] at hv₃
    rw [← pow_succ] at hq₃
    refine ⟨u₃, v₃, q₃, ?_, ?_⟩
    · simp only [index, List.foldl_cons, List.foldl_nil, if_pos one]
      exact ⟨hu₃, hv₃.residue, hq₃.residue⟩
    · simp only [lucasLoop, runU, runV, runQ, Exec.ok_bind, if_pos one, runSum, runS, runU₃,
        runSum', runT, runV₃, runQ₃]
  · refine ⟨u₂, v₂, q₂, ?_, ?_⟩
    · simp only [index, List.foldl_cons, List.foldl_nil, if_neg one]
      exact ⟨hu₂, hv₂, hq₂.residue⟩
    · simp only [lucasLoop, runU, runV, runQ, Exec.ok_bind, if_neg one]

/-- The loop ends at the index its digits lead to, with the last power of `Q` halved if
it turned at all. -/
theorem lucasLoop_spec (hn : n < 2 ^ (64 * 4)) (odd : n % 2 = 1) (hq0 : Residue n q0 Q)
    (hd : Residue n d (1 - 4 * Q)) (bits : List UInt8) (state : AtIndex n Q k u v q) :
    ∃ u' v' w', lucasLoop G (ofNat 4 n) q0 d bits u v q w = .ok (u', v', w') ∧
      Reduced n u' (lucasU 1 Q (index k bits)) ∧ Residue n v' (lucasV 1 Q (index k bits)) ∧
        ((bits = [] → Residue n w (Q ^ (k / 2))) → Residue n w' (Q ^ (index k bits / 2))) := by
  induction bits generalizing k u v q w with
  | nil => exact ⟨u, v, w, rfl, state.u, state.v, fun last => last rfl⟩
  | cons bit bits ih =>
    obtain ⟨u₁, v₁, q₁, next, run⟩ := lucasLoop_cons G (w := w) hn odd hq0 hd state bit bits
    have halved : index k [bit] / 2 = k := by
      simp only [index, List.foldl_cons, List.foldl_nil]
      split <;> omega
    obtain ⟨u', v', w', rest, hu, hv, hw⟩ := ih (w := q) next
    refine ⟨u', v', w', run.trans rest, hu, hv, fun _ => hw fun _ => ?_⟩
    rw [halved]
    exact state.q

/-! ## Binary expansions -/

theorem bits_eq_append (positive : 0 < k) : bits k = bits (k / 2) ++ [UInt8.ofNat (k % 2)] := by
  unfold bits
  rw [Nat.digits_eq_cons_digits_div one_lt_two positive.ne', List.reverse_cons, List.map_append]
  rfl

/-- The digits of a number lead from zero to it. -/
theorem index_zero_bits (k : ℕ) : index 0 (bits k) = k := by
  induction k using Nat.strong_induction_on with
  | _ k ih =>
    rcases Nat.eq_zero_or_pos k with rfl | positive
    · rfl
    · have before : index 0 (bits (k / 2)) = k / 2 := ih (k / 2) (by omega)
      have digit : (if UInt8.ofNat (k % 2) = 1 then 1 else 0) = k % 2 := by
        cases Nat.mod_two_eq_zero_or_one k with
        | inl even => rw [even]; rfl
        | inr odd => rw [odd]; rfl
      unfold index at before ⊢
      rw [bits_eq_append positive, List.foldl_append, before, List.foldl_cons, List.foldl_nil,
        digit]
      omega

/-- The first digit is one. -/
theorem exists_bits_eq_cons (positive : 0 < k) :
    ∃ rest, bits k = 1 :: rest ∧ (2 ≤ k → rest ≠ []) := by
  induction k using Nat.strong_induction_on with
  | _ k ih =>
    rw [bits_eq_append positive]
    by_cases one : k = 1
    · subst one
      exact ⟨[], rfl, fun many => absurd many (by omega)⟩
    · obtain ⟨rest, first, -⟩ := ih (k / 2) (by omega) (by omega)
      rw [first]
      exact ⟨rest ++ [_], rfl, fun _ => by simp⟩

/-! ## The whole computation -/

/-- The target index is reached from one along the digits after the first. -/
theorem index_one_of_bits {rest : List UInt8} (digits : bits k = 1 :: rest) :
    index 1 rest = k := by
  have whole := index_zero_bits k
  rw [digits] at whole
  exact whole

/-- `compute_lucas_sequences` returns the sequences with parameters `1` and `Q` at the
target, modulo `n`. -/
theorem computeLucasSequences_spec (hn : n < 2 ^ (64 * 4)) (odd : n % 2 = 1) (large : 3 ≤ n)
    (hk : k < 2 ^ (64 * 4)) (positive : 1 ≤ k) {i j : ℤ} (wordQ : i.natAbs < 2 ^ 64)
    (wordD : j.natAbs < 2 ^ 64) (parameters : j = 1 - 4 * i) :
    ∃ u' v' w', computeLucasSequences G (ofNat 4 k) (ofNat 4 n) (fromU64 1) (fromU64 1) i j =
        .ok (u', v', w') ∧
      Reduced n u' (lucasU 1 (i : ZMod n) k) ∧ Residue n v' (lucasV 1 (i : ZMod n) k) ∧
        (2 ≤ k → Residue n w' ((i : ZMod n) ^ (k / 2))) := by
  have ne : n ≠ 0 := by omega
  obtain ⟨q0, runQ, hq0⟩ := iModN_spec G hn ne wordQ
  obtain ⟨d, runD, hd⟩ := iModN_spec G hn ne wordD
  obtain ⟨rest, digits, longer⟩ := exists_bits_eq_cons positive
  have hd' : Residue n d (1 - 4 * (i : ZMod n)) := by
    rw [parameters] at hd
    exact_mod_cast hd
  have start : AtIndex n (i : ZMod n) 1 (fromU64 1) (fromU64 1) q0 := by
    refine ⟨⟨1, by omega, rfl, Nat.cast_one⟩, ⟨1, by omega, rfl, Nat.cast_one⟩, ?_⟩
    rwa [pow_one]
  obtain ⟨u', v', w', run, hu, hv, hw⟩ := lucasLoop_spec G (w := q0) hn odd hq0 hd' rest start
  rw [index_one_of_bits digits] at hu hv hw
  refine ⟨u', v', w', ?_, hu, hv, fun many => hw fun empty => absurd empty (longer many)⟩
  have written : writeBinary G (ofNat 4 k) (List.replicate 257 0) = _ :=
    writeBinary_ofNat G hk (by omega) (by rw [List.length_replicate]; decide)
  have inside (tail : List UInt8) : (bits k).length ≤ (bits k ++ tail).length := by
    rw [List.length_append]
    exact Nat.le_add_right _ _
  simp only [computeLucasSequences, runQ, runD, written, Exec.ok_bind]
  rw [sliceTo_of_le (inside _), Exec.ok_bind, List.take_left, digits]
  exact run

end

/-! ## Integer sequences -/

section

variable {n : ℕ} {x : U256} {i : ℤ}

/-- A residue of an integer is congruent to it. -/
theorem Residue.toNat_modEq (hn : n < 2 ^ (64 * 4)) (residue : Residue n x i) :
    (x.toNat : ℤ) ≡ i [ZMOD n] := by
  obtain ⟨c, le, rfl, cast⟩ := residue
  rw [toNat_ofNat (le.trans_lt hn), ← ZMod.intCast_eq_intCast_iff, Int.cast_natCast, cast]

/-- The reduced one is its remainder. -/
theorem Reduced.toNat_eq (hn : n < 2 ^ (64 * 4)) (reduced : Reduced n x i) :
    (x.toNat : ℤ) = i % n := by
  have congruent : (x.toNat : ℤ) % n = i % n := reduced.residue.toNat_modEq hn
  obtain ⟨c, lt, rfl, -⟩ := reduced
  rw [toNat_ofNat (lt.trans hn)] at congruent ⊢
  rw [← congruent, Int.emod_eq_of_lt (Int.natCast_nonneg c) (by exact_mod_cast lt)]

/-- For every odd modulus and every positive target `compute_lucas_sequences` returns,
with the integer sequences of parameters `1` and `Q` modulo `n`. -/
theorem lucas_sequences_computed (G : Gmp) (k n : U256) (D Q : ℤ) (normalK : Normal k)
    (normalN : Normal n) (odd : n.toNat % 2 = 1) (large : 3 ≤ n.toNat) (positive : 1 ≤ k.toNat)
    (residue : D % 4 = 1) (small : |D| ≤ 1003) (quotient : Q = (1 - D) / 4) :
    ∃ u v w, computeLucasSequences G k n (fromU64 1) (fromU64 1) Q D = .ok (u, v, w) ∧
      (u.toNat : ℤ) = lucasU (1 : ℤ) Q k.toNat % n.toNat ∧ u.toNat < n.toNat ∧
      (v.toNat : ℤ) ≡ lucasV (1 : ℤ) Q k.toNat [ZMOD n.toNat] ∧
      (2 ≤ k.toNat → (w.toNat : ℤ) ≡ Q ^ (k.toNat / 2) [ZMOD n.toNat]) := by
  have hn := n.toNat_lt
  have hk := k.toNat_lt
  have parameters : D = 1 - 4 * Q := by omega
  have bounds := abs_le.mp small
  have wordQ : Q.natAbs < 2 ^ 64 := by omega
  have wordD : D.natAbs < 2 ^ 64 := by omega
  rw [normalK.eq_ofNat, normalN.eq_ofNat, toNat_ofNat hn, toNat_ofNat hk]
  obtain ⟨u, v, w, run, hu, hv, hw⟩ :=
    computeLucasSequences_spec G hn odd large hk positive wordQ wordD parameters
  have castU : ((lucasU 1 Q k.toNat : ℤ) : ZMod n.toNat) = lucasU 1 (Q : ZMod n.toNat) k.toNat := by
    simpa using map_lucasU (Int.castRingHom (ZMod n.toNat)) 1 Q k.toNat
  have castV : ((lucasV 1 Q k.toNat : ℤ) : ZMod n.toNat) = lucasV 1 (Q : ZMod n.toNat) k.toNat := by
    simpa using map_lucasV (Int.castRingHom (ZMod n.toNat)) 1 Q k.toNat
  rw [← castU] at hu
  rw [← castV] at hv
  have remainder := hu.toNat_eq hn
  have below : (u.toNat : ℤ) < n.toNat := by
    rw [remainder]
    exact Int.emod_lt_of_pos _ (by omega)
  refine ⟨u, v, w, run, remainder, by exact_mod_cast below, hv.toNat_modEq hn, fun many => ?_⟩
  apply Residue.toNat_modEq hn
  rw [Int.cast_pow]
  exact hw many

theorem lucas_sequences_computed_thirteen :
    ∃ u v w, computeLucasSequences Gmp.reference (ofNat 4 14) (ofNat 4 13) (fromU64 1) (fromU64 1)
        (-1) 5 = .ok (u, v, w) ∧
      (u.toNat : ℤ) = lucasU (1 : ℤ) (-1) (ofNat 4 14).toNat % (ofNat 4 13).toNat ∧
      u.toNat < (ofNat 4 13).toNat ∧
      (v.toNat : ℤ) ≡ lucasV (1 : ℤ) (-1) (ofNat 4 14).toNat [ZMOD (ofNat 4 13).toNat] ∧
      (2 ≤ (ofNat 4 14).toNat →
        (w.toNat : ℤ) ≡ (-1) ^ ((ofNat 4 14).toNat / 2) [ZMOD (ofNat 4 13).toNat]) :=
  lucas_sequences_computed Gmp.reference (ofNat 4 14) (ofNat 4 13) 5 (-1) (normal_ofNat 4 14)
    (normal_ofNat 4 13) (by decide) (by decide) (by decide) (by decide) (by decide) (by decide)

end

end Primality

end GroupAccumulator
