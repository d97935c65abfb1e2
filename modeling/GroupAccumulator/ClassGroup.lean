import GroupAccumulator.Group
import GroupAccumulator.Hash
import GroupAccumulator.Util

/-!
# The class group

The functions of `group/class.rs`.  A class group element is a triple
`(a, b, c)`; nothing in its type says that it is reduced or that it has the
group's discriminant, which is the parameter `D` here and the constant
`CLASS_GROUP_DISCRIMINANT` in the crate.

`reduce` loops until its triple is reduced and `exp_` until its exponent is
zero.  Both run on fuel, which every function calling them passes on; unwraps,
assertions and divisions by zero end in the fault they would panic with.
-/

namespace GroupAccumulator

/-- A class group element. -/
structure ClassElem where
  a : ℤ
  b : ℤ
  c : ℤ
  deriving DecidableEq, Repr

/-- The lines of the decimal constant: a 2048-bit prime, negated. -/
def CLASS_GROUP_DISCRIMINANT : ℤ :=
  -([
  30616069034807523947093657516320815215492876376165067902716988657802400037331914448218251590830,
  1102189519215849430413184776658192481976276720778009261808832630304841711366872161223643645001916,
  6969493423497224870506311710491233557329479816457723381368788734079933165653042145718668727765268,
  0575673207678516369650123480826989387975548598309959486361425021860161020248607833276306314923730,
  9854570972702350567411779734372573754840570138310317754359137013512655926325773048926718050691092,
  9453371727344087286361426404588335160385998280988603297435639020911295652025967761702701701471162
  ].foldl (fun d line => d * 10 ^ 97 + line) 0 * 10 ^ 37 + 3966286152805654229445219531956098223)

namespace ClassGroup

/-! ## Reduction -/

def isNormal (a b _c : ℤ) : Bool := -a < b && b ≤ a

def isReduced (a b c : ℤ) : Bool := isNormal a b c && (a ≤ c && !(a = c && b < 0))

def discriminant (a b c : ℤ) : ℤ := b * b - 4 * a * c

def validate (D a b c : ℤ) : Bool := discriminant a b c = D

def normalize (a b c : ℤ) : Exec (ℤ × ℤ × ℤ) :=
  if isNormal a b c then
    return (a, b, c)
  else do
    -- (a, b, c) = (a, b + 2ra, ar^2 + br + c)
    let (r, _) ← divRemFloor (a - b) (2 * a)
    let newB := b + 2 * (r * a)
    let newC := c + b * r + a * (r * r)
    return (a, newB, newC)

/-- The loop of `reduce`. -/
def reduceLoop : ℕ → ℤ → ℤ → ℤ → Exec (ℤ × ℤ × ℤ)
  | 0, _, _, _ => .error .outOfFuel
  | fuel + 1, a, b, c =>
    if isReduced a b c then
      return (a, b, c)
    else do
      -- (a, b, c) = (c, -b + 2sc, cs^2 - bs + a)
      let (s, _) ← divRemFloor (c + b) (2 * c)
      reduceLoop fuel c (-b + 2 * (s * c)) (-(b * s) + a + c * (s * s))

def reduce (fuel : ℕ) (a b c : ℤ) : Exec (ℤ × ℤ × ℤ) := do
  let (a, b, c) ← reduceLoop fuel a b c
  normalize a b c

/-- Panics if `(a, b, c)` cannot be reduced to a valid class element. -/
def elem (D : ℤ) (fuel : ℕ) (abc : ℤ × ℤ × ℤ) : Exec ClassElem := do
  let (a, b, c) ← reduce fuel abc.1 abc.2.1 abc.2.2
  assert (validate D a b c)
  return ⟨a, b, c⟩

/-! ## Composition -/

/-- The variables of `op_` that its result is computed from. -/
structure OpVars where
  h : ℤ
  w : ℤ
  s : ℤ
  t : ℤ
  u : ℤ
  k : ℤ
  l : ℤ
  m : ℤ

/-- `op_` up to the point where the variables are known. -/
def opVars (R : Rug) (x y : ClassElem) : Exec OpVars := do
  let (g, _) ← divRemFloor (x.b + y.b) 2
  let (h, _) ← divRemFloor (y.b - x.b) 2
  let w : ℤ := Int.gcd (Int.gcd x.a y.a) g
  let (s, _) ← divRemFloor x.a w
  let (t, _) ← divRemFloor y.a w
  let (u, _) ← divRemFloor g w
  -- Solve linear congruence `(tu)k = hu + sc mod st` for solutions `k`.
  let (mu, v) ← unwrap (← solveLinearCongruence R (t * u) (h * u + s * x.c) (s * t))
  -- Solve linear congruence `(tv)k = h - t * mu mod s` for solutions `k`.
  let (lambda, _) ← unwrap (← solveLinearCongruence R (t * v) (h - t * mu) s)
  let k := mu + v * lambda
  let (l, _) ← divRemFloor (k * t - h) s
  let (m, _) ← divRemFloor (t * u * k - h * u - x.c * s) (s * t)
  return ⟨h, w, s, t, u, k, l, m⟩

def op_ (R : Rug) (D : ℤ) (fuel : ℕ) (x y : ClassElem) : Exec ClassElem := do
  let ⟨_, w, s, t, u, k, l, m⟩ ← opVars R x y
  let j := w
  -- A = st, B = ju - kt + ls, C = kl - jm
  let a := s * t
  let b := j * u - (k * t + l * s)
  let c := k * l - j * m
  elem D fuel (a, b, c)

def square (R : Rug) (D : ℤ) (fuel : ℕ) (x : ClassElem) : Exec ClassElem := do
  -- Solve `bk = c mod a` for `k`.
  let (mu, _) ← unwrap (← solveLinearCongruence R x.b x.c x.a)
  -- A = a^2, B = b - 2a * mu, C = mu^2 - (b * mu - c) / a
  let a := x.a * x.a
  let b := x.b - 2 * x.a * mu
  let (tmp, _) ← divRemFloor (x.b * mu - x.c) x.a
  let c := mu * mu - tmp
  elem D fuel (a, b, c)

/-! ## Identity, inverse and powers -/

/-- Constructs the reduced element directly instead of using `elem`. -/
def id_ (D : ℤ) : ClassElem := ⟨1, 1, (1 - D).fdiv 4⟩

/-- Constructs the inverse directly instead of using `elem`. -/
def inv_ (x : ClassElem) : ClassElem := ⟨x.a, -x.b, x.c⟩

/-- The loop of `exp_`. -/
def expLoop (R : Rug) (D : ℤ) : ℕ → ClassElem → ClassElem → ℤ → Exec ClassElem
  | 0, _, _, _ => .error .outOfFuel
  | fuel + 1, val, a, n =>
    if n = 0 then
      return val
    else do
      let val ← (if n % 2 = 1 then op_ R D fuel val a else pure val)
      let a ← square R D fuel a
      expLoop R D fuel val a (n / 2)

def exp_ (R : Rug) (D : ℤ) (fuel : ℕ) (a : ClassElem) (n : ℤ) : Exec ClassElem :=
  if n < 0 then expLoop R D fuel (id_ D) (inv_ a) (-n)
  else expLoop R D fuel (id_ D) a n

def unknownOrderElem_ (D : ℤ) : ClassElem := ⟨2, 1, (1 - D).tdiv 8⟩

/-! ## Hashing -/

/-- Assumes `ClassElem` is reduced and normalized. -/
instance [Hash ℤ] : Hash ClassElem where
  feed x := Hash.feed x.a ++ (Hash.feed x.b ++ Hash.feed x.c)

end ClassGroup

end GroupAccumulator
