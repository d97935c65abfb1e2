import GroupAccumulator.Uint

/-!
# Primality testing

The functions of `hash/primality`: trial division, one Miller-Rabin round to base two
and a Lucas test with parameters chosen by Selfridge's method.  All arithmetic is on
`U256` and `U512` values, whose additions and subtractions panic on overflow.  The
small signed parameters are integers here, far from the bounds of `i32`.
-/

namespace GroupAccumulator

namespace Primality

open Uint

/-- Used as a prefilter to `is_prob_prime`. -/
def SMALL_PRIMES : List UInt64 := [
  2, 3, 5, 7, 11, 13, 17, 19, 23, 29, 31, 37, 41, 43, 47, 53, 59, 61, 67, 71, 73, 79, 83, 89, 97,
  101, 103, 107, 109, 113, 127, 131, 137, 139, 149, 151, 157, 163, 167, 173, 179, 181, 191, 193,
  197, 199, 211, 223, 227, 229, 233, 239, 241, 251, 257, 263, 269, 271, 277, 281, 283, 293, 307,
  311, 313, 317, 331, 337, 347, 349, 353, 359, 367, 373, 379, 383, 389, 397, 401, 409, 419, 421,
  431, 433, 439, 443, 449, 457, 461, 463, 467, 479, 487, 491, 499, 503, 509, 521, 523, 541, 547,
  557, 563, 569, 571, 577, 587, 593, 599, 601, 607, 613, 617, 619, 631, 641, 643, 647, 653, 659,
  661, 673, 677, 683, 691, 701, 709, 719, 727, 733, 739, 743, 751, 757, 761, 769, 773, 787, 797,
  809, 811, 821, 823, 827, 829, 839, 853, 857, 859, 863, 877, 881, 883, 887, 907, 911, 919, 929,
  937, 941, 947, 953, 967, 971, 977, 983, 991, 997, 1009, 1013, 1019, 1021, 1031, 1033, 1039,
  1049, 1051, 1061, 1063, 1069, 1087, 1091, 1093, 1097, 1103, 1109, 1117, 1123, 1129, 1151, 1153,
  1163, 1171, 1181, 1187, 1193, 1201, 1213, 1217, 1223]

/-- The first 250 entries of `D_VALUES`. -/
def D_VALUES_LOW : List ℤ := [
  5, -7, 9, -11, 13, -15, 17, -19, 21, -23, 25, -27, 29, -31, 33, -35, 37, -39, 41, -43, 45, -47,
  49, -51, 53, -55, 57, -59, 61, -63, 65, -67, 69, -71, 73, -75, 77, -79, 81, -83, 85, -87, 89,
  -91, 93, -95, 97, -99, 101, -103, 105, -107, 109, -111, 113, -115, 117, -119, 121, -123, 125,
  -127, 129, -131, 133, -135, 137, -139, 141, -143, 145, -147, 149, -151, 153, -155, 157, -159,
  161, -163, 165, -167, 169, -171, 173, -175, 177, -179, 181, -183, 185, -187, 189, -191, 193,
  -195, 197, -199, 201, -203, 205, -207, 209, -211, 213, -215, 217, -219, 221, -223, 225, -227,
  229, -231, 233, -235, 237, -239, 241, -243, 245, -247, 249, -251, 253, -255, 257, -259, 261,
  -263, 265, -267, 269, -271, 273, -275, 277, -279, 281, -283, 285, -287, 289, -291, 293, -295,
  297, -299, 301, -303, 305, -307, 309, -311, 313, -315, 317, -319, 321, -323, 325, -327, 329,
  -331, 333, -335, 337, -339, 341, -343, 345, -347, 349, -351, 353, -355, 357, -359, 361, -363,
  365, -367, 369, -371, 373, -375, 377, -379, 381, -383, 385, -387, 389, -391, 393, -395, 397,
  -399, 401, -403, 405, -407, 409, -411, 413, -415, 417, -419, 421, -423, 425, -427, 429, -431,
  433, -435, 437, -439, 441, -443, 445, -447, 449, -451, 453, -455, 457, -459, 461, -463, 465,
  -467, 469, -471, 473, -475, 477, -479, 481, -483, 485, -487, 489, -491, 493, -495, 497, -499,
  501, -503]

/-- The last 250 entries of `D_VALUES`. -/
def D_VALUES_HIGH : List ℤ := [
  505, -507, 509, -511, 513, -515, 517, -519, 521, -523, 525, -527, 529, -531, 533, -535, 537,
  -539, 541, -543, 545, -547, 549, -551, 553, -555, 557, -559, 561, -563, 565, -567, 569, -571,
  573, -575, 577, -579, 581, -583, 585, -587, 589, -591, 593, -595, 597, -599, 601, -603, 605,
  -607, 609, -611, 613, -615, 617, -619, 621, -623, 625, -627, 629, -631, 633, -635, 637, -639,
  641, -643, 645, -647, 649, -651, 653, -655, 657, -659, 661, -663, 665, -667, 669, -671, 673,
  -675, 677, -679, 681, -683, 685, -687, 689, -691, 693, -695, 697, -699, 701, -703, 705, -707,
  709, -711, 713, -715, 717, -719, 721, -723, 725, -727, 729, -731, 733, -735, 737, -739, 741,
  -743, 745, -747, 749, -751, 753, -755, 757, -759, 761, -763, 765, -767, 769, -771, 773, -775,
  777, -779, 781, -783, 785, -787, 789, -791, 793, -795, 797, -799, 801, -803, 805, -807, 809,
  -811, 813, -815, 817, -819, 821, -823, 825, -827, 829, -831, 833, -835, 837, -839, 841, -843,
  845, -847, 849, -851, 853, -855, 857, -859, 861, -863, 865, -867, 869, -871, 873, -875, 877,
  -879, 881, -883, 885, -887, 889, -891, 893, -895, 897, -899, 901, -903, 905, -907, 909, -911,
  913, -915, 917, -919, 921, -923, 925, -927, 929, -931, 933, -935, 937, -939, 941, -943, 945,
  -947, 949, -951, 953, -955, 957, -959, 961, -963, 965, -967, 969, -971, 973, -975, 977, -979,
  981, -983, 985, -987, 989, -991, 993, -995, 997, -999, 1001, -1003]

/-- The discriminants tried by `choose_d`, in the order of the source's table. -/
def D_VALUES : List ℤ := D_VALUES_LOW ++ D_VALUES_HIGH

variable (G : Gmp)

/-! ## The Miller-Rabin round -/

/-- The loop of `passes_miller_rabin_base_2`, with the number of rounds left. -/
def millerRabinLoop (n : U256) : ℕ → U256 → Exec Bool
  | 0, _ => return false
  | rounds + 1, x => do
    let x ← remU256 G (mul G x x) n
    if eqU64 x 1 then
      return false
    if x = (← subU64 G n 1) then
      return true
    millerRabinLoop n rounds x

/-- A single iteration of the Miller-Rabin test (base-2 Fermat test). -/
def passesMillerRabinBase2 (n : U256) : Exec Bool := do
  let (d, r) ← removeFactor G (← subU64 G n 1) (fromU64 2)
  let x ← powMod G (fromU64 2) d n
  if eqU64 x 1 then
    return true
  if x = (← subU64 G n 1) then
    return true
  -- `for _ in 1..r`
  millerRabinLoop G n (r - 1) x

/-! ## The Lucas test -/

/-- Mod an `i32` into the `[0, n)` range. -/
def iModN (n : U256) (x : ℤ) : Exec U256 :=
  if x < 0 then do
    sub G n (← rem G (fromU64 (UInt64.ofNat x.natAbs)) n)
  else
    rem G (fromU64 (UInt64.ofNat x.natAbs)) n

/-- Finds `t` in `Z_n` with `2t = x (mod n)`.  Assumes `x` in `[0, n)`. -/
def half (n x : U256) : Exec U256 :=
  if isOdd x then do
    addU64 G (← add G (shr G x 1) (shr G n 1)) 1
  else
    return shr G x 1

def subModN (n : U256) (a b : U512) : Exec U256 :=
  if cmp G a b = .gt then do
    remU256 G (← sub G a b) n
  else do
    sub G n (← remU256 G (← sub G b a) n)

/-- The loop of `compute_lucas_sequences` over the binary expansion of the target. -/
def lucasLoop (n q0 d : U256) : List UInt8 → U256 → U256 → U256 → U256 → Exec (U256 × U256 × U256)
  | [], u, v, _, qKOver2 => return (u, v, qKOver2)
  | bit :: bits, u, v, q, _ => do
    -- `(u, v)_{2k}` from `(u, v)_k`
    let u ← remU256 G (mul G u v) n
    let v ← subModN G n (mul G v v) (shl G (toU512 q) 1)
    let qKOver2 := q
    let q ← remU256 G (mul G q q) n
    if bit = 1 then do
      -- `(u, v)_{2k+1}` from `(u, v)_{2k}`
      let uOld := u
      let u ← half G n (← remU256 G (← add G (toU512 u) (toU512 v)) n)
      let v ← half G n (← remU256 G (← add G (mul G d uOld) (toU512 v)) n)
      let q ← remU256 G (mul G q q0) n
      lucasLoop n q0 d bits u v q qKOver2
    else
      lucasLoop n q0 d bits u v q qKOver2

/-- Computes the Lucas sequences `u` and `v` at `kTarget`, and `q^{kTarget/2}`, modulo `n`. -/
def computeLucasSequences (kTarget n u v : U256) (q0 d : ℤ) : Exec (U256 × U256 × U256) := do
  let q0 ← iModN G n q0
  let d ← iModN G n d
  let (kTargetBits, len) ← writeBinary G kTarget (List.replicate 257 0)
  let bits ← sliceTo kTargetBits len
  lucasLoop G n q0 d (bits.drop 1) u v q0 q0

/-- The error of `choose_d`. -/
structure IsPerfectSquare

/-- Finds and returns first `D` in the table for which Jacobi symbol `(D/n) = -1`. -/
def chooseD (n : U256) : Exec (Except IsPerfectSquare ℤ) :=
  if isPerfectSquare G n then
    return .error ⟨⟩
  else
    match D_VALUES.find? fun d => jacobi G d n = -1 with
    | some d => return .ok d
    | none => .error .explicitPanic

/-- Strong Lucas probable prime test. -/
def passesLucas (n : U256) : Exec Bool := do
  match ← chooseD G n with
  | .error _ => return false
  | .ok d => do
    let q := (1 - d).tdiv 4
    let (uDelta, vDelta, qDeltaOver2) ←
      computeLucasSequences G (← addU64 G n 1) n (fromU64 1) (fromU64 1) q d
    return eqU64 uDelta 0 && isCongruent G vDelta (2 * q) n &&
      isCongruent G qDeltaOver2 (q * jacobi G q n) n

/-! ## The test -/

/-- Implements the Baillie-PSW probabilistic primality test. -/
def isProbPrime (n : U256) : Exec Bool :=
  match SMALL_PRIMES.find? fun p => isDivisibleU G n p with
  | some p => return eqU64 n p
  | none => do
    if ← passesMillerRabinBase2 G n then passesLucas G n else return false

end Primality

end GroupAccumulator
