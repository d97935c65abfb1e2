import GroupAccumulator.UintDivision
import GroupAccumulator.UintInvariant

/-!
# Arithmetic of fixed-width integers

An expression over both widths is run on values (`Term.run`) and evaluated on numbers
(`Term.eval`).  On numbers every operator is the one of the naturals, with three
exceptions: what does not fit and a negative difference panic, and a zero divisor ends in
GMP's division by zero; left shifts and the lower half drop the upper limbs; and the
quotient by, and the remainder in place of, a divisor of other length are those of
`UintDivision`.

`Agrees` is the relation between the two sides.  It is kept by composition
(`Agrees.bind`), so one lemma for each operator gives the whole expression
(`run_eq_eval`).  Left out are the expressions with a power that has the exponent zero
modulo one, where GMP leaves a limb above the size (`Term.Guarded`).
-/

namespace GroupAccumulator

open Theory

namespace Uint

/-- Expressions of the operators of both widths. -/
inductive Term : ℕ → Type
  | limbs {w : ℕ} (value : Limbs w) : Term w
  | word {w : ℕ} (u : UInt64) : Term w
  | add {w : ℕ} (left right : Term w) : Term w
  | addU64 {w : ℕ} (left : Term w) (u : UInt64) : Term w
  | sub {w : ℕ} (left right : Term w) : Term w
  | subU64 {w : ℕ} (left : Term w) (u : UInt64) : Term w
  | mul (left right : Term 4) : Term 8
  | div {w : ℕ} (left right : Term w) : Term w
  | rem {w : ℕ} (left right : Term w) : Term w
  | remAssign {w : ℕ} (left right : Term w) : Term w
  | remU256 (left : Term 8) (right : Term 4) : Term 4
  | lowU256 (arg : Term 8) : Term 4
  | toU512 (arg : Term 4) : Term 8
  | shl {w : ℕ} (arg : Term w) (k : Fin 64) : Term w
  | shr {w : ℕ} (arg : Term w) (k : Fin 64) : Term w
  | powMod {w : ℕ} (base exponent modulus : Term w) : Term w

namespace Term

variable (G : Gmp)

/-- The operators called, operands from left to right. -/
def run : {w : ℕ} → Term w → Exec (Uint w)
  | _, .limbs value => return fromLimbs value
  | _, .word u => return fromU64 u
  | _, .add l r => do Uint.add G (← l.run) (← r.run)
  | _, .addU64 l u => do Uint.addU64 G (← l.run) u
  | _, .sub l r => do Uint.sub G (← l.run) (← r.run)
  | _, .subU64 l u => do Uint.subU64 G (← l.run) u
  | _, .mul l r => do return Uint.mul G (← l.run) (← r.run)
  | _, .div l r => do Uint.div G (← l.run) (← r.run)
  | _, .rem l r => do Uint.rem G (← l.run) (← r.run)
  | _, .remAssign l r => do Uint.remAssign G (← l.run) (← r.run)
  | _, .remU256 l r => do Uint.remU256 G (← l.run) (← r.run)
  | _, .lowU256 x => do return Uint.lowU256 (← x.run)
  | _, .toU512 x => do return Uint.toU512 (← x.run)
  | _, .shl x k => do return Uint.shl G (← x.run) k
  | _, .shr x k => do return Uint.shr G (← x.run) k
  | _, .powMod x e m => do Uint.powMod G (← x.run) (← e.run) (← m.run)

end Term

/-! ## The operators on numbers -/

/-- A number of `w` limbs, where there is one. -/
def checked (w n : ℕ) : Exec ℕ := if n < 2 ^ (64 * w) then .ok n else .error .assertFailed

def difference (a b : ℕ) : Exec ℕ := if b ≤ a then .ok (a - b) else .error .assertFailed

/-- What has a divisor, and ends in a division by zero if that is zero. -/
def divided (b n : ℕ) : Exec ℕ := if b = 0 then .error .divisionByZero else .ok n

/-- A divisor with more limbs is answered with the dividend. -/
def quotient (a b : ℕ) : ℕ := if limbCount a < limbCount b then a else a / b

/-- The limbs of the dividend above those of a divisor of no more limbs stay. -/
def remainderInPlace (a b : ℕ) : ℕ :=
  if limbCount a < limbCount b then a
  else a / 2 ^ (64 * limbCount b) * 2 ^ (64 * limbCount b) + a % b

/-- The number of an expression. -/
def Term.eval : {w : ℕ} → Term w → Exec ℕ
  | _, .limbs value => return value.toNat
  | w, .word u => return u.toNat % 2 ^ (64 * w)
  | w, .add l r => do checked w ((← l.eval) + (← r.eval))
  | w, .addU64 l u => do checked w ((← l.eval) + u.toNat % 2 ^ (64 * w))
  | _, .sub l r => do difference (← l.eval) (← r.eval)
  | w, .subU64 l u => do difference (← l.eval) (u.toNat % 2 ^ (64 * w))
  | _, .mul l r => do return (← l.eval) * (← r.eval)
  | _, .div l r => do
    let a ← l.eval
    let b ← r.eval
    divided b (quotient a b)
  | _, .rem l r => do
    let a ← l.eval
    let b ← r.eval
    divided b (a % b)
  | _, .remAssign l r => do
    let a ← l.eval
    let b ← r.eval
    divided b (remainderInPlace a b)
  | _, .remU256 l r => do
    let a ← l.eval
    let b ← r.eval
    divided b (a % b)
  | _, .lowU256 x => do return (← x.eval) % 2 ^ (64 * 4)
  | _, .toU512 x => x.eval
  | w, .shl x k => do return (← x.eval) * 2 ^ k.val % 2 ^ (64 * w)
  | _, .shr x k => do return (← x.eval) / 2 ^ k.val
  | _, .powMod x e m => do
    let a ← x.eval
    let n ← e.eval
    let b ← m.eval
    divided b (a ^ n % b)

/-- No power in the expression has an exponent that is zero and a modulus that is one. -/
def Term.Guarded : {w : ℕ} → Term w → Prop
  | _, .limbs _ | _, .word _ => True
  | _, .addU64 x _ | _, .subU64 x _ | _, .shl x _ | _, .shr x _ => x.Guarded
  | _, .lowU256 x => x.Guarded
  | _, .toU512 x => x.Guarded
  | _, .add l r | _, .sub l r | _, .div l r | _, .rem l r | _, .remAssign l r =>
    l.Guarded ∧ r.Guarded
  | _, .mul l r => l.Guarded ∧ r.Guarded
  | _, .remU256 l r => l.Guarded ∧ r.Guarded
  | _, .powMod x e m =>
    x.Guarded ∧ e.Guarded ∧ m.Guarded ∧ ¬ (e.eval = .ok 0 ∧ m.eval = .ok 1)

/-! ## Agreement -/

/-- Both calls return, a value and the number it holds, or both end in one fault. -/
inductive Agrees {w : ℕ} : Exec (Uint w) → Exec ℕ → Prop
  | ok {n : ℕ} (fits : n < 2 ^ (64 * w)) : Agrees (.ok (ofNat w n)) (.ok n)
  | error (p : Fault) : Agrees (.error p) (.error p)

variable {w w' : ℕ}

/-- What follows runs on the number that was computed. -/
theorem Agrees.bind_of_eq {m : Exec (Uint w)} {v : Exec ℕ} {f : Uint w → Exec (Uint w')}
    {g : ℕ → Exec ℕ} (arg : Agrees m v)
    (rest : ∀ n, n < 2 ^ (64 * w) → v = .ok n → Agrees (f (ofNat w n)) (g n)) :
    Agrees (m >>= f) (v >>= g) := by
  cases arg with
  | ok fits => exact rest _ fits rfl
  | error p => exact .error p

theorem Agrees.bind {m : Exec (Uint w)} {v : Exec ℕ} {f : Uint w → Exec (Uint w')}
    {g : ℕ → Exec ℕ} (arg : Agrees m v)
    (rest : ∀ n, n < 2 ^ (64 * w) → Agrees (f (ofNat w n)) (g n)) :
    Agrees (m >>= f) (v >>= g) :=
  arg.bind_of_eq fun n fits _ => rest n fits

theorem Agrees.pure {x : Uint w} {n : ℕ} (fits : n < 2 ^ (64 * w)) (value : x = ofNat w n) :
    Agrees (Pure.pure x) (Pure.pure n) := by
  rw [value]
  exact .ok fits

/-! ## One operator -/

section

variable (G : Gmp) {a b n : ℕ}

/-- A number is held modulo the width. -/
theorem ofNat_mod (w n : ℕ) : ofNat w (n % 2 ^ (64 * w)) = ofNat w n := by
  have limbs : BitVec.ofNat (64 * w) (n % 2 ^ (64 * w)) = BitVec.ofNat (64 * w) n := by
    apply BitVec.eq_of_toNat_eq
    rw [BitVec.toNat_ofNat, BitVec.toNat_ofNat, Nat.mod_mod]
  unfold ofNat
  rw [limbs]

theorem mod_width_lt (w n : ℕ) : n % 2 ^ (64 * w) < 2 ^ (64 * w) :=
  Nat.mod_lt n (Nat.two_pow_pos _)

theorem agrees_add (ha : a < 2 ^ (64 * w)) (hb : b < 2 ^ (64 * w)) :
    Agrees (add G (ofNat w a) (ofNat w b)) (checked w (a + b)) := by
  unfold checked
  split
  next fits =>
    rw [add_ofNat G fits]
    exact .ok fits
  next overflow =>
    have carry : (a + b) / 2 ^ (64 * w) ≠ 0 := by
      rw [Nat.div_ne_zero_iff]
      omega
    simp only [add, limbs_ofNat ha, limbs_ofNat hb, G.add_eq ha hb]
    rw [decide_eq_false carry]
    exact .error .assertFailed

theorem agrees_sub (ha : a < 2 ^ (64 * w)) (hb : b < 2 ^ (64 * w)) :
    Agrees (sub G (ofNat w a) (ofNat w b)) (difference a b) := by
  unfold difference
  split
  next le =>
    rw [sub_ofNat G ha le]
    exact .ok ((Nat.sub_le a b).trans_lt ha)
  next negative =>
    simp only [sub, limbs_ofNat ha, limbs_ofNat hb, G.sub_eq ha hb,
      if_pos (not_le.mp negative)]
    exact .error .assertFailed

/-- A word is held modulo the width as well. -/
theorem fromU64_eq_mod (u : UInt64) : (fromU64 u : Uint w) = ofNat w (u.toNat % 2 ^ (64 * w)) :=
  (fromU64_eq u).trans (ofNat_mod w _).symm

theorem agrees_addU64 (ha : a < 2 ^ (64 * w)) (u : UInt64) :
    Agrees (addU64 G (ofNat w a) u) (checked w (a + u.toNat % 2 ^ (64 * w))) := by
  rw [addU64, fromU64_eq_mod]
  exact agrees_add G ha (mod_width_lt w _)

theorem agrees_subU64 (ha : a < 2 ^ (64 * w)) (u : UInt64) :
    Agrees (subU64 G (ofNat w a) u) (difference a (u.toNat % 2 ^ (64 * w))) := by
  rw [subU64, fromU64_eq_mod]
  exact agrees_sub G ha (mod_width_lt w _)

/-- Zero has no limbs, so no dividend is shorter and GMP is asked to divide by it. -/
theorem size_ofNat_zero (w : ℕ) : (ofNat w 0).size = 0 := by
  rw [size_ofNat (Nat.two_pow_pos _), limbCount_eq_zero_iff.mpr rfl]
  rfl

theorem not_longer_zero (w w' a : ℕ) (ha : a < 2 ^ (64 * w)) :
    ¬(ofNat w' 0).size > (ofNat w a).size := by
  rw [size_ofNat_zero, size_ofNat ha]
  omega

theorem tdivQr_zero (x : Uint w) : tdivQr G x (ofNat w' 0) = .error .divisionByZero :=
  if_pos (size_ofNat_zero w')

theorem agrees_div (ha : a < 2 ^ (64 * w)) (hb : b < 2 ^ (64 * w)) :
    Agrees (div G (ofNat w a) (ofNat w b)) (divided b (quotient a b)) := by
  unfold divided quotient
  split
  next zero =>
    rw [zero, div, if_neg (not_longer_zero w w a ha), tdivQr_zero]
    exact .error .divisionByZero
  next ne =>
    split
    next fewer =>
      rw [div_of_limbCount_lt G ha hb fewer]
      exact .ok ha
    next enough =>
      rw [div_ofNat G ha hb ne (not_lt.mp enough)]
      exact .ok ((Nat.div_le_self a b).trans_lt ha)

theorem agrees_rem (ha : a < 2 ^ (64 * w)) (hb : b < 2 ^ (64 * w)) :
    Agrees (rem G (ofNat w a) (ofNat w b)) (divided b (a % b)) := by
  unfold divided
  split
  next zero =>
    rw [zero, rem, if_neg (not_longer_zero w w a ha), tdivQr_zero]
    exact .error .divisionByZero
  next ne =>
    rw [rem_ofNat G ha hb ne]
    exact .ok ((Nat.mod_le a b).trans_lt ha)

theorem agrees_remU256 (ha : a < 2 ^ (64 * 8)) (hb : b < 2 ^ (64 * 4)) :
    Agrees (remU256 G (ofNat 8 a) (ofNat 4 b)) (divided b (a % b)) := by
  unfold divided
  split
  next zero =>
    rw [zero, remU256, if_neg (not_longer_zero 8 4 a ha), tdivQr_zero]
    exact .error .divisionByZero
  next ne =>
    rw [remU256_ofNat G ha hb ne]
    exact .ok ((Nat.mod_lt a (Nat.pos_of_ne_zero ne)).trans hb)

/-- The limbs that stay and those of the remainder fit beside each other. -/
theorem remainderInPlace_lt (ha : a < 2 ^ (64 * w)) (ne : b ≠ 0) :
    remainderInPlace a b < 2 ^ (64 * w) := by
  unfold remainderInPlace
  split
  next => exact ha
  next enough =>
    have counted : limbCount b ≤ w :=
      (not_lt.mp enough).trans (limbCount_le_iff.mpr ha)
    have below : a % b < 2 ^ (64 * limbCount b) := mod_lt_pow_limbCount ne
    have width : 2 ^ (64 * w) = 2 ^ (64 * (w - limbCount b)) * 2 ^ (64 * limbCount b) := by
      rw [← pow_add]
      congr 1
      omega
    have upper : a / 2 ^ (64 * limbCount b) + 1 ≤ 2 ^ (64 * (w - limbCount b)) := by
      rw [width] at ha
      exact Nat.div_lt_of_lt_mul (by rwa [mul_comm])
    calc a / 2 ^ (64 * limbCount b) * 2 ^ (64 * limbCount b) + a % b
        < (a / 2 ^ (64 * limbCount b) + 1) * 2 ^ (64 * limbCount b) := by
          rw [add_one_mul]
          exact Nat.add_lt_add_left below _
      _ ≤ 2 ^ (64 * w) := by
          rw [width]
          exact Nat.mul_le_mul_right _ upper

theorem agrees_remAssign (ha : a < 2 ^ (64 * w)) (hb : b < 2 ^ (64 * w)) :
    Agrees (remAssign G (ofNat w a) (ofNat w b)) (divided b (remainderInPlace a b)) := by
  unfold divided
  split
  next zero =>
    rw [zero, remAssign, if_neg (not_longer_zero w w a ha), tdivQr_zero]
    exact .error .divisionByZero
  next ne =>
    have fits := remainderInPlace_lt ha ne
    unfold remainderInPlace at fits ⊢
    split
    next fewer =>
      rw [remAssign_of_limbCount_lt G ha hb fewer, Nat.mod_eq_of_lt (lt_of_limbCount_lt fewer)]
      exact .ok ha
    next enough =>
      rw [if_neg enough] at fits
      rw [remAssign_ofNat G ha hb ne (not_lt.mp enough)]
      exact .ok fits

theorem agrees_powMod (ha : a < 2 ^ (64 * w)) (hn : n < 2 ^ (64 * w)) (hb : b < 2 ^ (64 * w))
    (known : n ≠ 0 ∨ b ≠ 1) :
    Agrees (powMod G (ofNat w a) (ofNat w n) (ofNat w b)) (divided b (a ^ n % b)) := by
  unfold divided
  split
  next zero =>
    have modulusZero : (ofNat w b).asMpz = 0 := by rw [asMpz_ofNat hb, zero, Nat.cast_zero]
    rw [powMod, if_pos modulusZero]
    exact .error .divisionByZero
  next ne =>
    rw [powMod_ofNat G ha hn hb ne known]
    exact .ok ((Nat.mod_lt _ (Nat.pos_of_ne_zero ne)).trans hb)

/-- A shift by nothing only scans for the size. -/
theorem shl_eq (ha : a < 2 ^ (64 * w)) (k : Fin 64) :
    shl G (ofNat w a) k = ofNat w (a * 2 ^ k.val % 2 ^ (64 * w)) := by
  rcases Nat.eq_zero_or_pos k.val with zero | positive
  · rw [zero, shl, shlLoop, dif_neg (by omega), pow_zero, mul_one, Nat.mod_eq_of_lt ha]
    rfl
  · exact shl_ofNat G ha positive (by omega)

theorem shr_eq (ha : a < 2 ^ (64 * w)) (k : Fin 64) :
    shr G (ofNat w a) k = ofNat w (a / 2 ^ k.val) := by
  rcases Nat.eq_zero_or_pos k.val with zero | positive
  · rw [zero, shr, shrLoop, dif_neg (by omega), pow_zero, Nat.div_one]
    rfl
  · exact shr_ofNat G ha positive (by omega)

theorem lowU256_eq (ha : a < 2 ^ (64 * 8)) :
    lowU256 (ofNat 8 a) = ofNat 4 (a % 2 ^ (64 * 4)) := by
  rw [lowU256_ofNat ha, ofNat_mod]

/-! ## Expressions -/

theorem Term.agrees (t : Term w) (guarded : t.Guarded) : Agrees (t.run G) t.eval := by
  induction t with
  | limbs value =>
    refine .pure value.isLt ?_
    unfold ofNat
    rw [BitVec.ofNat_toNat, BitVec.setWidth_eq]
  | @word w u => exact .pure (mod_width_lt w _) (fromU64_eq_mod u)
  | add l r left right =>
    exact (left guarded.1).bind fun a ha => (right guarded.2).bind fun b hb => agrees_add G ha hb
  | addU64 l u left => exact (left guarded).bind fun a ha => agrees_addU64 G ha u
  | sub l r left right =>
    exact (left guarded.1).bind fun a ha => (right guarded.2).bind fun b hb => agrees_sub G ha hb
  | subU64 l u left => exact (left guarded).bind fun a ha => agrees_subU64 G ha u
  | mul l r left right =>
    refine (left guarded.1).bind fun a ha => (right guarded.2).bind fun b hb => ?_
    exact .pure (mul_lt_wide ha hb) (mul_ofNat G ha hb)
  | div l r left right =>
    exact (left guarded.1).bind fun a ha => (right guarded.2).bind fun b hb => agrees_div G ha hb
  | rem l r left right =>
    exact (left guarded.1).bind fun a ha => (right guarded.2).bind fun b hb => agrees_rem G ha hb
  | remAssign l r left right =>
    exact (left guarded.1).bind fun a ha => (right guarded.2).bind fun b hb =>
      agrees_remAssign G ha hb
  | remU256 l r left right =>
    exact (left guarded.1).bind fun a ha => (right guarded.2).bind fun b hb =>
      agrees_remU256 G ha hb
  | lowU256 x arg =>
    exact (arg guarded).bind fun a ha => .pure (mod_width_lt 4 a) (lowU256_eq ha)
  | toU512 x arg =>
    rw [Term.eval, ← bind_pure x.eval]
    exact (arg guarded).bind fun a ha => .pure (lt_of_lt_half ha) (toU512_ofNat ha)
  | @shl w x k arg =>
    exact (arg guarded).bind fun a ha => .pure (mod_width_lt w _) (shl_eq G ha k)
  | shr x k arg =>
    refine (arg guarded).bind fun a ha => ?_
    exact .pure ((Nat.div_le_self a _).trans_lt ha) (shr_eq G ha k)
  | powMod x e m base exponent modulus =>
    obtain ⟨guardedX, guardedE, guardedM, notUnit⟩ := guarded
    refine (base guardedX).bind fun a ha => ?_
    refine (exponent guardedE).bind_of_eq fun n hn power => ?_
    refine (modulus guardedM).bind_of_eq fun b hb divisor => agrees_powMod G ha hn hb ?_
    rw [power, divisor] at notUnit
    by_contra unit
    push Not at unit
    exact notUnit ⟨congrArg _ unit.1, congrArg _ unit.2⟩

end

/-- Every guarded expression ends as the one on numbers does, in the same fault or in the value
of its number, which fits the width and has the size of the number. -/
theorem run_eq_eval (G : Gmp) {w : ℕ} (t : Term w) (guarded : t.Guarded) :
    t.run G = (do return ofNat w (← t.eval)) ∧
      ∀ n, t.eval = .ok n → (ofNat w n).toNat = n ∧ (ofNat w n).size = limbCount n := by
  have agrees := t.agrees G guarded
  generalize t.run G = m at agrees
  generalize t.eval = v at agrees
  cases agrees with
  | ok fits =>
    refine ⟨rfl, ?_⟩
    intro n returned
    cases returned
    exact ⟨toNat_ofNat fits, size_ofNat fits⟩
  | error p =>
    refine ⟨rfl, ?_⟩
    intro n returned
    cases returned

/-- Five to the power of two, modulo the remainder seven. -/
theorem run_eq_eval_power :
    let t : Term 4 := .powMod (.word 5) (.add (.word 1) (.word 1)) (.rem (.word 17) (.word 10))
    t.run Gmp.reference = .ok (ofNat 4 4) ∧ (ofNat 4 4).toNat = 4 ∧
      (ofNat 4 4).size = limbCount 4 := by
  intro t
  have guarded : t.Guarded := by
    refine ⟨trivial, ⟨trivial, trivial⟩, ⟨trivial, trivial⟩, ?_⟩
    decide
  have number : t.eval = .ok 4 := by decide
  obtain ⟨run, value⟩ := run_eq_eval Gmp.reference t guarded
  refine ⟨?_, value 4 number⟩
  rw [run, number]
  rfl

end Uint

end GroupAccumulator
