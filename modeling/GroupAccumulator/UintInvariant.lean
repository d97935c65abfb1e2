import GroupAccumulator.UintValue

/-!
# The representation invariant of fixed-width integers

Equality compares sizes and limbs, the order compares limbs only, and GMP is told the
size.  They agree on the values that are `Normal`.  `Built` are the values obtained by
composing the public constructors and operations, with conditions on the arguments of
three of them (`Admitted`).  `from_be_bytes` writes the limbs and leaves the size at
zero, so its result is normal for zero bytes only (`normal_fromBeBytes_iff`).
`pow_mod` copies nothing but the size back from GMP, which leaves a limb above it for
the exponent zero modulo one.  `remove_factor` relies on GMP working in place.  Every
other operation scans for the size or keeps that of its argument, and `Built.normal` is
the invariant.
-/

namespace GroupAccumulator

open Theory

namespace Uint

variable {w : ℕ} {x y z : Uint w}

/-! ## Values that are normal -/

theorem normal_normalizeSize (x : Uint w) : Normal (normalizeSize x) := rfl

theorem normal_zero : Normal (zero : Uint w) := by
  have empty : (0 : Limbs w).significant w = 0 := by
    rw [Limbs.significant_eq, Limbs.low_self]
    simp [limbCount_eq_zero_iff]
  exact (congrArg (Nat.cast : ℕ → ℤ) empty).symm

theorem normal_one (positive : 0 < w) : Normal (one : Uint w) := by
  have value : (1 : Limbs w).toNat = 1 := by
    have : 1 < 2 ^ (64 * w) := Nat.one_lt_two_pow (by omega)
    simp [BitVec.toNat_ofNat, Nat.mod_eq_of_lt this]
  have single : (1 : Limbs w).significant w = 1 := by
    rw [Limbs.significant_eq, Limbs.low_self, value]
    rfl
  exact (congrArg (Nat.cast : ℕ → ℤ) single).symm

theorem Normal.size_eq (normal : Normal x) : x.size = limbCount x.toNat := by
  rw [Normal, Limbs.significant_eq, Limbs.low_self] at normal
  exact normal

theorem normal_iff_size_eq : Normal x ↔ x.size = limbCount x.toNat := by
  rw [Normal, Limbs.significant_eq, Limbs.low_self]
  rfl

/-- The limbs from the size on are zero. -/
theorem Normal.limb_eq_zero (normal : Normal x) {i : ℕ} (beyond : x.size ≤ i) :
    x.limbs.limb i = 0 := by
  rw [normal.size_eq, Nat.cast_le, limbCount_le_iff] at beyond
  apply BitVec.eq_of_toNat_eq
  have small : x.limbs.toNat < 2 ^ (64 * i) := beyond
  rw [Limbs.limb_toNat, Nat.div_eq_of_lt small]
  rfl

/-! ## Agreement with the number -/

theorem Normal.eq_iff (hx : Normal x) (hy : Normal y) : x = y ↔ x.toNat = y.toNat := by
  refine ⟨congrArg toNat, fun same => ?_⟩
  rw [hx.eq_ofNat, hy.eq_ofNat, same]

theorem Normal.isZero_iff (normal : Normal x) : isZero x = true ↔ x.toNat = 0 := by
  rw [isZero, decide_eq_true_eq, normal.size_eq]
  exact_mod_cast limbCount_eq_zero_iff

theorem Normal.eqU64_iff (normal : Normal x) (u : UInt64) :
    eqU64 x u = true ↔ x.toNat = u.toNat := by
  rw [normal.eq_ofNat, eqU64_ofNat x.toNat_lt, decide_eq_true_eq, toNat_ofNat x.toNat_lt]

/-- The order reads the limbs only. -/
theorem cmp_eq_compare (G : Gmp) (x y : Uint w) : cmp G x y = compare x.toNat y.toNat := by
  have neg : G.mpnCmp w x.limbs.toNat y.limbs.toNat < 0 ↔ x.toNat < y.toNat :=
    G.cmp_neg x.toNat_lt y.toNat_lt
  have zero : G.mpnCmp w x.limbs.toNat y.limbs.toNat = 0 ↔ x.toNat = y.toNat :=
    G.cmp_zero x.toNat_lt y.toNat_lt
  simp only [cmp, neg, zero, compare, compareOfLessAndEq]

theorem partialCmp_eq_cmp (G : Gmp) (x y : Uint w) : partialCmp G x y = some (cmp G x y) := rfl

/-! ## Bytes -/

def AllZero (bytes : List UInt8) : Prop := ∀ byte ∈ bytes, byte = 0

theorem ofDigits_eq_zero_iff (bytes : List UInt8) :
    Nat.ofDigits 256 (bytes.map UInt8.toNat) = 0 ↔ AllZero bytes := by
  induction bytes with
  | nil => simp [AllZero]
  | cons byte bytes ih =>
    have head : byte.toNat = (0 : UInt8).toNat ↔ byte = 0 := UInt8.toNat_inj
    unfold AllZero at ih ⊢
    rw [List.map_cons, Nat.ofDigits_cons, List.forall_mem_cons, ← ih, ← head, UInt8.toNat_zero]
    omega

theorem ofDigits_lt (bytes : List UInt8) (fits : bytes.length ≤ 8 * w) :
    Nat.ofDigits 256 (bytes.map UInt8.toNat) < 2 ^ (64 * w) := by
  have digits : ∀ d ∈ bytes.map UInt8.toNat, d < 256 := by
    intro d member
    obtain ⟨byte, -, rfl⟩ := List.mem_map.mp member
    exact byte.toNat_lt
  calc Nat.ofDigits 256 (bytes.map UInt8.toNat) < 256 ^ bytes.length := by
        have bound := Nat.ofDigits_lt_base_pow_length (by omega) digits
        rwa [List.length_map] at bound
    _ = 2 ^ (8 * bytes.length) := by rw [show 256 = 2 ^ 8 from rfl, ← pow_mul]
    _ ≤ 2 ^ (64 * w) := Nat.pow_le_pow_right Nat.two_pos (by omega)

/-- The size stays zero. -/
theorem fromBeBytes_eq (G : Gmp) {bytes : List UInt8} (nonempty : bytes ≠ []) :
    (fromBeBytes G bytes : Uint w) =
      ⟨0, BitVec.ofNat (64 * w) (Nat.ofDigits 256 (bytes.reverse.map UInt8.toNat))⟩ := by
  obtain ⟨value, fits⟩ := G.setStr_256 nonempty
  unfold fromBeBytes
  simp only [write_zero fits]
  rw [value]
  rfl

theorem normal_fromBeBytes_iff (G : Gmp) {bytes : List UInt8} (nonempty : bytes ≠ [])
    (fits : bytes.length ≤ 8 * w) : Normal (fromBeBytes G bytes : Uint w) ↔ AllZero bytes := by
  have bound := ofDigits_lt (w := w) bytes.reverse (by rwa [List.length_reverse])
  have value : (fromBeBytes G bytes : Uint w).toNat =
      Nat.ofDigits 256 (bytes.reverse.map UInt8.toNat) := by
    rw [fromBeBytes_eq G nonempty]
    exact toNat_ofNat bound
  have size : (fromBeBytes G bytes : Uint w).size = 0 := by rw [fromBeBytes_eq G nonempty]
  have reversed : AllZero bytes.reverse ↔ AllZero bytes := by simp [AllZero]
  rw [normal_iff_size_eq, value, size, eq_comm, Nat.cast_eq_zero, limbCount_eq_zero_iff,
    ofDigits_eq_zero_iff, reversed]

/-- The bytes reversed, and padded to the width. -/
def reversedLe (w : ℕ) (bytes : List UInt8) : List UInt8 :=
  bytes.reverse ++ List.replicate (8 * w - bytes.length) 0

theorem fromBytes_reversedLe (bytes : List UInt8) :
    (fromBytes (reversedLe w bytes) : Uint w) =
      ofNat w (Nat.ofDigits 256 (bytes.reverse.map UInt8.toNat)) := by
  unfold fromBytes reversedLe ofNat
  rw [List.map_append, List.map_replicate]
  exact congrArg (fun n => fromLimbs (BitVec.ofNat (64 * w) n))
    (Nat.ofDigits_append_replicate_zero _)

theorem fromBeBytes_eq_fromBytes_iff (G : Gmp) {bytes : List UInt8} (nonempty : bytes ≠ [])
    (fits : bytes.length ≤ 8 * w) :
    (fromBeBytes G bytes : Uint w) = fromBytes (reversedLe w bytes) ↔ AllZero bytes := by
  rw [← normal_fromBeBytes_iff (w := w) G nonempty fits]
  constructor
  · intro same
    rw [same]
    exact normal_normalizeSize _
  · intro normal
    rw [normal.eq_ofNat, fromBytes_reversedLe, fromBeBytes_eq G nonempty]
    have bound := ofDigits_lt (w := w) bytes.reverse (by rwa [List.length_reverse])
    exact congrArg (ofNat w) (toNat_ofNat bound)

/-! ## Compositions -/

/-- Which bytes, exponents with their modulus, and values with the factor to remove the
operations are given. -/
structure Admitted where
  bytes : List UInt8 → Prop
  power : ℕ → ℕ → Prop
  factor : ℕ → ℕ → Prop

def Admitted.all : Admitted := ⟨fun _ => True, fun _ _ => True, fun _ _ => True⟩

/-- Zero bytes, no exponent zero modulo one, and a factor that is two or odd or not in the
value. -/
def Admitted.kept : Admitted :=
  ⟨AllZero, fun e m => e ≠ 0 ∨ m ≠ 1, fun x f => f = 2 ∨ f % 2 = 1 ∨ x = 0 ∨ ¬ f ∣ x⟩

/-- The values obtained by composing the public constructors and operations of both
widths, given what is admitted.  The remainder by reference and the one in place come
with their by-value forms, which call them. -/
inductive Built (G : Gmp) (A : Admitted) : {w : ℕ} → Uint w → Prop
  | zero {w : ℕ} (width : w = 4 ∨ w = 8) : Built G A (zero : Uint w)
  | one {w : ℕ} (width : w = 4 ∨ w = 8) : Built G A (one : Uint w)
  | fromU64 {w : ℕ} (width : w = 4 ∨ w = 8) (u : UInt64) : Built G A (fromU64 u : Uint w)
  | fromLimbs {w : ℕ} (width : w = 4 ∨ w = 8) (limbs : Limbs w) : Built G A (fromLimbs limbs)
  | fromBytes {w : ℕ} (width : w = 4 ∨ w = 8) {bytes : List UInt8}
      (full : bytes.length = 8 * w) : Built G A (fromBytes bytes : Uint w)
  | fromBeBytes {w : ℕ} (width : w = 4 ∨ w = 8) {bytes : List UInt8} (nonempty : bytes ≠ [])
      (fits : bytes.length ≤ 8 * w) (admitted : A.bytes bytes) :
      Built G A (fromBeBytes G bytes : Uint w)
  | toU512 {x : U256} (arg : Built G A x) : Built G A (toU512 x)
  | lowU256 {x : U512} (arg : Built G A x) : Built G A (lowU256 x)
  | add {w : ℕ} {x y z : Uint w} (left : Built G A x) (right : Built G A y)
      (run : add G x y = .ok z) : Built G A z
  | addU64 {w : ℕ} {x z : Uint w} {u : UInt64} (arg : Built G A x)
      (run : addU64 G x u = .ok z) : Built G A z
  | sub {w : ℕ} {x y z : Uint w} (left : Built G A x) (right : Built G A y)
      (run : sub G x y = .ok z) : Built G A z
  | subU64 {w : ℕ} {x z : Uint w} {u : UInt64} (arg : Built G A x)
      (run : subU64 G x u = .ok z) : Built G A z
  | mul {x y : U256} (left : Built G A x) (right : Built G A y) : Built G A (mul G x y)
  | div {w : ℕ} {x y z : Uint w} (left : Built G A x) (right : Built G A y)
      (run : div G x y = .ok z) : Built G A z
  | rem {w : ℕ} {x y z : Uint w} (left : Built G A x) (right : Built G A y)
      (run : rem G x y = .ok z) : Built G A z
  | remAssign {w : ℕ} {x y z : Uint w} (left : Built G A x) (right : Built G A y)
      (run : remAssign G x y = .ok z) : Built G A z
  | remU256 {x : U512} {y z : U256} (left : Built G A x) (right : Built G A y)
      (run : remU256 G x y = .ok z) : Built G A z
  | shl {w k : ℕ} {x : Uint w} (arg : Built G A x) (small : k < 64) : Built G A (shl G x k)
  | shr {w k : ℕ} {x : Uint w} (arg : Built G A x) (small : k < 64) : Built G A (shr G x k)
  | removeFactor {x f z : U256} {c : ℕ} (left : Built G A x) (right : Built G A f)
      (admitted : A.factor x.toNat f.toNat) (run : removeFactor G x f = .ok (z, c)) : Built G A z
  | powMod {w : ℕ} {x e m z : Uint w} (base : Built G A x) (exponent : Built G A e)
      (modulus : Built G A m) (admitted : A.power e.toNat m.toNat)
      (run : powMod G x e m = .ok z) : Built G A z

variable {G : Gmp}

/-! ### One operation -/

/-- What ends in a scan for the size is normal. -/
theorem normal_of_normalized {m : Exec (Uint w)} {t : Uint w}
    (run : m = .ok z) (scanned : m = .ok (normalizeSize t)) : Normal z := by
  cases scanned.symm.trans run
  exact normal_normalizeSize t

theorem normal_of_add (run : add G x y = .ok z) : Normal z := by
  obtain ⟨_, -, returned⟩ := Exec.bind_eq_ok run
  exact normal_of_normalized returned rfl

theorem normal_of_sub (run : sub G x y = .ok z) : Normal z := by
  obtain ⟨_, -, returned⟩ := Exec.bind_eq_ok run
  exact normal_of_normalized returned rfl

/-- The three divisions of one width keep the dividend or scan for the size. -/
theorem normal_of_division {shortcut : Prop} [Decidable shortcut] {q : Exec (ℕ × ℕ)}
    {t : ℕ × ℕ → Uint w} (hx : Normal x)
    (run : (if shortcut then (.ok x : Exec (Uint w)) else q >>= fun r => .ok (normalizeSize (t r)))
      = .ok z) : Normal z := by
  split at run
  · cases run
    exact hx
  · obtain ⟨r, -, returned⟩ := Exec.bind_eq_ok run
    exact normal_of_normalized returned rfl

theorem normal_of_remU256 {x : U512} {y z : U256} (run : remU256 G x y = .ok z) : Normal z := by
  unfold remU256 at run
  split at run
  · exact normal_of_normalized run rfl
  · obtain ⟨r, -, returned⟩ := Exec.bind_eq_ok run
    exact normal_of_normalized returned rfl

theorem normal_of_removeFactor {x f z : U256} {c : ℕ} (run : removeFactor G x f = .ok (z, c)) :
    Normal z := by
  unfold removeFactor at run
  split at run
  · cases run
  · split at run
    · cases run
      exact normal_normalizeSize _
    · cases run

/-- GMP gives the size of a power that is reduced, and here no limb above it. -/
theorem normal_of_powMod {e m : Uint w} (hx : Normal x) (he : Normal e) (hm : Normal m)
    (known : e.toNat ≠ 0 ∨ m.toNat ≠ 1) (run : powMod G x e m = .ok z) : Normal z := by
  have ne : m.toNat ≠ 0 := by
    intro zero
    have modulusZero : m.asMpz = 0 := by
      rw [hm.eq_ofNat, asMpz_ofNat m.toNat_lt, zero, Nat.cast_zero]
    rw [powMod, if_pos modulusZero] at run
    cases run
  rw [hx.eq_ofNat, he.eq_ofNat, hm.eq_ofNat,
    powMod_ofNat G x.toNat_lt e.toNat_lt m.toNat_lt ne known] at run
  cases run
  exact normal_ofNat w _

/-- The exponent zero modulo one leaves a limb behind the size. -/
example : powMod Gmp.reference (fromU64 5 : U256) zero one = .ok ⟨0, 1⟩ := by decide

/-! ### Runs -/

/-- Under the conditions every value built is normal. -/
theorem Built.normal (built : Built G .kept x) : Normal x := by
  induction built with
  | zero => exact normal_zero
  | one width => exact normal_one (by omega)
  | fromU64 => exact normal_normalizeSize _
  | fromLimbs => exact normal_normalizeSize _
  | fromBytes => exact normal_normalizeSize _
  | fromBeBytes _ nonempty fits zero => exact (normal_fromBeBytes_iff G nonempty fits).mpr zero
  | @toU512 x _ hx =>
    rw [hx.eq_ofNat, toU512_ofNat x.toNat_lt]
    exact normal_ofNat 8 _
  | lowU256 => exact normal_normalizeSize _
  | add _ _ run => exact normal_of_add run
  | addU64 _ run => exact normal_of_add run
  | sub _ _ run => exact normal_of_sub run
  | subU64 _ run => exact normal_of_sub run
  | mul => exact normal_normalizeSize _
  | div _ _ run hx => exact normal_of_division hx run
  | rem _ _ run hx => exact normal_of_division hx run
  | remAssign _ _ run hx => exact normal_of_division hx run
  | remU256 _ _ run => exact normal_of_remU256 run
  | shl => exact normal_normalizeSize _
  | shr => exact normal_normalizeSize _
  | removeFactor _ _ _ run => exact normal_of_removeFactor run
  | powMod _ _ _ known run hx he hm => exact normal_of_powMod hx he hm known run

/-- While `from_be_bytes` is given zero bytes only, `pow_mod` never the exponent zero modulo
one, and `remove_factor` only removes two or odd factors, the size of every value built counts
its significant limbs, and equality, order and the comparisons with a word are those of the
numbers.  What `from_be_bytes` returns is such a value, and that of the reversed bytes, for
zero bytes only. -/
theorem built_representation (G : Gmp) :
    (∀ {w : ℕ} (x : Uint w), Built G .kept x →
      x.size = limbCount x.toNat ∧ (x.size = 0 ↔ x.toNat = 0) ∧
        ∀ i : ℕ, x.size ≤ i → x.limbs.limb i = 0) ∧
    (∀ {w : ℕ} (x y : Uint w), Built G .kept x → Built G .kept y →
      (x = y ↔ x.toNat = y.toNat) ∧ cmp G x y = compare x.toNat y.toNat ∧
        partialCmp G x y = some (compare x.toNat y.toNat) ∧
        (isZero x = true ↔ x.toNat = 0) ∧ ∀ u : UInt64, eqU64 x u = true ↔ x.toNat = u.toNat) ∧
    ∀ {w : ℕ} (bytes : List UInt8), w = 4 ∨ w = 8 → bytes ≠ [] → bytes.length ≤ 8 * w →
      ((fromBeBytes G bytes : Uint w).size = limbCount (fromBeBytes G bytes : Uint w).toNat ↔
          AllZero bytes) ∧
        ((fromBeBytes G bytes : Uint w) = fromBytes (reversedLe w bytes) ↔ AllZero bytes) := by
  refine ⟨?_, ?_, ?_⟩
  · intro w x built
    have normal := built.normal
    refine ⟨normal.size_eq, ?_, fun i beyond => normal.limb_eq_zero beyond⟩
    rw [normal.size_eq, Nat.cast_eq_zero, limbCount_eq_zero_iff]
  · intro w x y builtX builtY
    have hx := builtX.normal
    have order := cmp_eq_compare G x y
    refine ⟨hx.eq_iff builtY.normal, order, ?_, hx.isZero_iff, hx.eqU64_iff⟩
    rw [partialCmp_eq_cmp, order]
  · intro w bytes _ nonempty fits
    rw [← normal_iff_size_eq]
    exact ⟨normal_fromBeBytes_iff G nonempty fits, fromBeBytes_eq_fromBytes_iff G nonempty fits⟩

/-- A single byte one is built with size zero: `is_zero` holds of it. -/
theorem fromBeBytes_one_not_normal :
    let x : U256 := fromBeBytes Gmp.reference [1]
    Built Gmp.reference .all x ∧ x.toNat = 1 ∧ x.size = 0 ∧ isZero x = true ∧
      eqU64 x 1 = false ∧ cmp Gmp.reference x one = .eq ∧ x ≠ one ∧
      x ≠ fromBytes (reversedLe 4 [1]) := by
  intro x
  refine ⟨.fromBeBytes (Or.inl rfl) (by simp) (by simp) trivial, ?_⟩
  decide

end Uint

end GroupAccumulator
