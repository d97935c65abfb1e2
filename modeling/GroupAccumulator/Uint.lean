import GroupAccumulator.Gmp
import GroupAccumulator.Outcome

/-!
# Fixed-width integers

The types `U256` and `U512` of `uint.rs`, one definition for both widths as the macro
has it.  A value carries its limbs and, apart from them, the size GMP is told; an
operation on the limb array scans for the size afterwards, one on an `mpz_t` takes
over the size GMP left there.
-/

namespace GroupAccumulator

open Theory

/-- An integer of `w` limbs.  The size counts the limbs in use and carries the sign. -/
structure Uint (w : ℕ) where
  size : ℤ
  limbs : Limbs w
  deriving DecidableEq

abbrev U256 : Type := Uint 4

abbrev U512 : Type := Uint 8

namespace Uint

variable {w : ℕ}

/-- The vector `{data, size}`. -/
def data (x : Uint w) : ℕ := x.limbs.low x.size.toNat

def normalizeSize (x : Uint w) : Uint w := { x with size := x.limbs.significant w }

/-- The value of the `mpz_t` that shares the limbs. -/
def asMpz (x : Uint w) : ℤ := x.size.sign * x.limbs.low x.size.natAbs

/-- The zero integer after GMP has written through its `mpz_t`: the limbs are shared, the
size is copied back. -/
def ofMpz (stored : ℤ × ℕ) : Uint w := ⟨stored.1, BitVec.ofNat (64 * w) stored.2⟩

/-! ## Construction -/

def zero : Uint w := ⟨0, 0⟩

def isZero (x : Uint w) : Bool := x.size = 0

def one : Uint w := ⟨1, 1⟩

def isOdd (x : Uint w) : Bool := (x.limbs.limb 0).getLsbD 0

/-- `From<[u64; N]>`. -/
def fromLimbs (limbs : Limbs w) : Uint w := normalizeSize ⟨0, limbs⟩

/-- `From<u64>`. -/
def fromU64 (x : UInt64) : Uint w := fromLimbs (BitVec.ofNat (64 * w) x.toNat)

/-- `From<[u8; N]>`, little-endian. -/
def fromBytes (bytes : List UInt8) : Uint w :=
  fromLimbs (BitVec.ofNat (64 * w) (Nat.ofDigits 256 (bytes.map UInt8.toNat)))

/-- `self == u`. -/
def eqU64 (x : Uint w) (u : UInt64) : Bool :=
  (u = 0 && x.size = 0) || (x.size = 1 && (x.limbs.limb 0).toNat = u.toNat)

variable (G : Gmp)

def fromBeBytes (bytes : List UInt8) : Uint w :=
  let (value, count) := G.mpnSetStr bytes 256
  { (zero : Uint w) with limbs := (zero : Uint w).limbs.write count value }

/-! ## Number theory -/

/-- GMP divides by zero if `m == 0`. -/
def powMod (x e m : Uint w) : Exec (Uint w) :=
  if m.asMpz = 0 then .error .divisionByZero
  else .ok (ofMpz (G.mpzPowm x.asMpz e.asMpz m.asMpz))

def isPerfectSquare (x : Uint w) : Bool := G.mpnPerfectSquareP x.data ≠ 0

def jacobi (a : ℤ) (b : Uint w) : ℤ := G.mpzJacobi a b.asMpz

def isCongruent (x : Uint w) (i : ℤ) (m : Uint w) : Bool :=
  G.mpzCongruentP x.asMpz i m.asMpz ≠ 0

def isDivisibleU (x : Uint w) (u : UInt64) : Bool := G.mpzDivisibleUiP x.asMpz u.toNat ≠ 0

/-- The buffer with the binary digits written to its front, and their number.  Nothing keeps
GMP from writing behind a buffer that is too small; the model stops there. -/
def writeBinary (x : Uint w) (buf : List UInt8) : Exec (List UInt8 × ℕ) :=
  let digits := G.mpnGetStr 2 x.data
  if digits.length ≤ buf.length then .ok (digits ++ buf.drop digits.length, digits.length)
  else .error .bufferTooSmall

/-! ## Order and shifts -/

def cmp (x y : Uint w) : Ordering :=
  let c := G.mpnCmp w x.limbs.toNat y.limbs.toNat
  if c < 0 then .lt else if c = 0 then .eq else .gt

def partialCmp (x y : Uint w) : Option Ordering :=
  let c := G.mpnCmp w x.limbs.toNat y.limbs.toNat
  some (if c < 0 then .lt else if c = 0 then .eq else .gt)

/-- The loop of `<<=`: at most a limb at a time. -/
def shlLoop (limbs : Limbs w) (x : ℕ) : Limbs w :=
  if _h : x ≠ 0 then
    let sz := min 64 x
    shlLoop (BitVec.ofNat (64 * w) (G.mpnLshift w limbs.toNat sz)) (x - sz)
  else limbs
termination_by x

def shl (self : Uint w) (x : ℕ) : Uint w :=
  normalizeSize { self with limbs := shlLoop G self.limbs x }

/-- The loop of `>>=`. -/
def shrLoop (limbs : Limbs w) (x : ℕ) : Limbs w :=
  if _h : x ≠ 0 then
    let sz := min 64 x
    shrLoop (BitVec.ofNat (64 * w) (G.mpnRshift w limbs.toNat sz)) (x - sz)
  else limbs
termination_by x

def shr (self : Uint w) (x : ℕ) : Uint w :=
  normalizeSize { self with limbs := shrLoop G self.limbs x }

/-! ## Arithmetic -/

/-- Panics if result overflows. -/
def add (x y : Uint w) : Exec (Uint w) := do
  let (sum, carry) := G.mpnAddN w x.limbs.toNat y.limbs.toNat
  assert (carry = 0)
  return normalizeSize { x with limbs := BitVec.ofNat (64 * w) sum }

/-- Panics if result is negative. -/
def sub (x y : Uint w) : Exec (Uint w) := do
  let (difference, borrow) := G.mpnSubN w x.limbs.toNat y.limbs.toNat
  assert (borrow = 0)
  return normalizeSize { x with limbs := BitVec.ofNat (64 * w) difference }

def addU64 (x : Uint w) (u : UInt64) : Exec (Uint w) := add G x (fromU64 u)

def subU64 (x : Uint w) (u : UInt64) : Exec (Uint w) := sub G x (fromU64 u)

/-- `mpn_tdiv_qr` on `{x, size}` and `{y, size}`, which divides by zero when the
divisor has no limbs. -/
def tdivQr {w' : ℕ} (x : Uint w) (y : Uint w') : Exec (ℕ × ℕ) :=
  if y.size = 0 then .error .divisionByZero
  else .ok (G.mpnTdivQr x.size.toNat y.size.toNat x.data y.data)

def rem (self x : Uint w) : Exec (Uint w) :=
  if x.size > self.size then return self
  else do
    let (_, r) ← tdivQr G self x
    return normalizeSize { (zero : Uint w) with
      limbs := (zero : Uint w).limbs.write x.size.toNat r }

/-- `%=`: the remainder overwrites the dividend. -/
def remAssign (self x : Uint w) : Exec (Uint w) :=
  if x.size > self.size then return self
  else do
    let (_, r) ← tdivQr G self x
    return normalizeSize { self with limbs := self.limbs.write x.size.toNat r }

def div (self x : Uint w) : Exec (Uint w) :=
  if x.size > self.size then return self
  else do
    let (q, _) ← tdivQr G self x
    return normalizeSize { (zero : Uint w) with
      limbs := (zero : Uint w).limbs.write (self.size.toNat - x.size.toNat + 1) q }

/-! ## Two widths -/

/-- The lower half. -/
def lowU256 (x : U512) : U256 := normalizeSize ⟨x.size, x.limbs.setWidth (64 * 4)⟩

/-- `From<U256>`. -/
def toU512 (x : U256) : U512 := ⟨x.size, x.limbs.setWidth (64 * 8)⟩

/-- `U512 % U256`. -/
def remU256 (self : U512) (x : U256) : Exec U256 :=
  if x.size > self.size then return lowU256 self
  else do
    let (_, r) ← tdivQr G self x
    return normalizeSize { (zero : U256) with
      limbs := (zero : U256).limbs.write x.size.toNat r }

/-- The result of removing all `f`s, and the number of `f`s removed.  GMP divides by zero
if `f == 0`. -/
def removeFactor (self f : U256) : Exec (U256 × ℕ) :=
  if f.asMpz = 0 then .error .divisionByZero
  else
    match G.mpzRemove self.asMpz f.asMpz with
    | some (out, c) => .ok (lowU256 (ofMpz out), c)
    | none => .error .invalidPointer

def mul (x y : U256) : U512 :=
  normalizeSize { (zero : U512) with
    limbs := BitVec.ofNat (64 * 8) (G.mpnMulN 4 x.limbs.toNat y.limbs.toNat) }

end Uint

end GroupAccumulator
