import Mathlib.Algebra.Order.Ring.Abs
import Mathlib.Tactic.LinearCombination
import Mathlib.Tactic.Linarith
import Mathlib.Tactic.Ring

/-!
# Binary quadratic forms over the integers

Forms `a x² + b x y + c y²`, their unimodular substitutions, and the uniqueness
of the reduced form in a class of positive definite forms.

* `Substitutes f g p q r s`: `f` is `g` after the substitution
  `(x, y) ↦ (p x + q y, r x + s y)` of determinant one, as three coefficient
  equations.
* `IsReduced.a_le_eval`: the leading coefficient of a reduced form is its least
  nonzero value.
* `IsReduced.eq_of_substitutes`: two reduced forms related by a substitution are
  equal, ties on the boundary of the reduced domain included.
-/

namespace Theory

/-- The form `a x² + b x y + c y²`. -/
@[ext] structure BinaryForm where
  a : ℤ
  b : ℤ
  c : ℤ
  deriving DecidableEq

namespace BinaryForm

def disc (f : BinaryForm) : ℤ := f.b ^ 2 - 4 * f.a * f.c

def eval (f : BinaryForm) (x y : ℤ) : ℤ := f.a * x ^ 2 + f.b * x * y + f.c * y ^ 2

/-- The form with the opposite middle coefficient. -/
def opposite (f : BinaryForm) : BinaryForm := ⟨f.a, -f.b, f.c⟩

/-- `f` is `g` after the unimodular substitution with rows `(p, q)` and `(r, s)`. -/
structure Substitutes (f g : BinaryForm) (p q r s : ℤ) : Prop where
  det : p * s - q * r = 1
  a_eq : f.a = g.eval p r
  b_eq : f.b = 2 * g.a * p * q + g.b * (p * s + q * r) + 2 * g.c * r * s
  c_eq : f.c = g.eval q s

/-- Proper equivalence of forms. -/
def Equivalent (f g : BinaryForm) : Prop := ∃ p q r s, Substitutes f g p q r s

/-- The fundamental domain, with the sign of `b` fixed on its boundary. -/
structure IsReduced (f : BinaryForm) : Prop where
  lower : -f.a < f.b
  upper : f.b ≤ f.a
  le : f.a ≤ f.c
  tie : f.a = f.c → 0 ≤ f.b

/-- No integer above one divides all three coefficients. -/
def Primitive (f : BinaryForm) : Prop := ∃ x y z : ℤ, x * f.a + y * f.b + z * f.c = 1

variable {f g h : BinaryForm} {p q r s : ℤ}

/-! ## Substitutions -/

theorem Substitutes.refl (f : BinaryForm) : Substitutes f f 1 0 0 1 := by
  constructor <;> simp [eval]

theorem Substitutes.symm (sub : Substitutes f g p q r s) :
    Substitutes g f s (-q) (-r) p := by
  obtain ⟨det, ha, hb, hc⟩ := sub
  unfold eval at ha hc
  refine ⟨by linarith, ?_, ?_, ?_⟩
  · unfold eval
    rw [ha, hb, hc]
    linear_combination (-g.a * (p * s - q * r + 1)) * det
  · rw [ha, hb, hc]
    linear_combination (-g.b * (p * s - q * r + 1)) * det
  · unfold eval
    rw [ha, hb, hc]
    linear_combination (-g.c * (p * s - q * r + 1)) * det

theorem Substitutes.trans {p' q' r' s' : ℤ} (left : Substitutes f g p q r s)
    (right : Substitutes g h p' q' r' s') :
    Substitutes f h (p' * p + q' * r) (p' * q + q' * s) (r' * p + s' * r)
      (r' * q + s' * s) := by
  obtain ⟨det, ha, hb, hc⟩ := left
  obtain ⟨det', ha', hb', hc'⟩ := right
  unfold eval at ha hc ha' hc'
  refine ⟨?_, ?_, ?_, ?_⟩
  · linear_combination (p * s - q * r) * det' + det
  · unfold eval
    rw [ha, ha', hb', hc']
    ring
  · rw [hb, ha', hb', hc']
    ring
  · unfold eval
    rw [hc, ha', hb', hc']
    ring

theorem Substitutes.disc_eq (sub : Substitutes f g p q r s) : f.disc = g.disc := by
  obtain ⟨det, ha, hb, hc⟩ := sub
  unfold eval at ha hc
  unfold disc
  rw [ha, hb, hc]
  linear_combination ((g.b ^ 2 - 4 * g.a * g.c) * (p * s - q * r + 1)) * det

theorem Equivalent.refl (f : BinaryForm) : Equivalent f f := ⟨1, 0, 0, 1, .refl f⟩

theorem Equivalent.symm (eqv : Equivalent f g) : Equivalent g f := by
  obtain ⟨p, q, r, s, sub⟩ := eqv
  exact ⟨_, _, _, _, sub.symm⟩

theorem Equivalent.trans (left : Equivalent f g) (right : Equivalent g h) :
    Equivalent f h := by
  obtain ⟨p, q, r, s, sub⟩ := left
  obtain ⟨p', q', r', s', sub'⟩ := right
  exact ⟨_, _, _, _, sub.trans sub'⟩

theorem Equivalent.disc_eq (eqv : Equivalent f g) : f.disc = g.disc := by
  obtain ⟨p, q, r, s, sub⟩ := eqv
  exact sub.disc_eq

/-- Leading coefficient, middle coefficient and discriminant determine a form. -/
theorem eq_of_disc_eq (ha : f.a = g.a) (hb : f.b = g.b) (hd : f.disc = g.disc)
    (ne : g.a ≠ 0) : f = g := by
  have hc : f.c = g.c := by
    unfold disc at hd
    rw [ha, hb] at hd
    have scaled : g.a * f.c = g.a * g.c := by linarith
    exact mul_left_cancel₀ ne scaled
  exact BinaryForm.ext ha hb hc

/-! ## Values of reduced forms -/

theorem IsReduced.window (red : f.IsReduced) : -f.a < f.b ∧ f.b ≤ f.a :=
  ⟨red.lower, red.upper⟩

theorem IsReduced.pos (red : f.IsReduced) : 0 < f.a := by
  have := red.window
  omega

theorem IsReduced.abs_b_le (red : f.IsReduced) : |f.b| ≤ f.a :=
  abs_le.mpr ⟨red.lower.le, red.upper⟩

/-- Every value is at least the value at the absolute coordinates with the sign
of `b` turned against it. -/
theorem le_eval (f : BinaryForm) (x y : ℤ) :
    f.a * ((|x| - |y|) ^ 2 + |x| * |y|) + (f.c - f.a) * |y| ^ 2 +
        (f.a - |f.b|) * (|x| * |y|) ≤ f.eval x y := by
  have cross : -(|f.b| * (|x| * |y|)) ≤ f.b * (x * y) := by
    rw [← abs_mul x y, ← abs_mul]
    exact neg_abs_le _
  have expand : f.a * ((|x| - |y|) ^ 2 + |x| * |y|) + (f.c - f.a) * |y| ^ 2 +
      (f.a - |f.b|) * (|x| * |y|) =
        f.a * |x| ^ 2 + f.c * |y| ^ 2 - |f.b| * (|x| * |y|) := by
    ring
  rw [expand, sq_abs, sq_abs]
  unfold eval
  linarith

theorem one_le_abs_form {x y : ℤ} (ne : x ≠ 0 ∨ y ≠ 0) :
    1 ≤ (|x| - |y|) ^ 2 + |x| * |y| := by
  by_contra small
  have prod : 0 ≤ |x| * |y| := mul_nonneg (abs_nonneg x) (abs_nonneg y)
  have gap : (|x| - |y|) ^ 2 = 0 := by
    have := sq_nonneg (|x| - |y|)
    omega
  have same : |x| = |y| := sub_eq_zero.mp (pow_eq_zero_iff two_ne_zero |>.mp gap)
  have yZero : |y| = 0 := by
    rw [same, sub_self] at small
    rw [same] at prod
    exact mul_self_eq_zero.mp (by omega)
  have xZero : |x| = 0 := same.trans yZero
  rw [abs_eq_zero] at xZero yZero
  cases ne with
  | inl ne => exact ne xZero
  | inr ne => exact ne yZero

/-- The leading coefficient of a reduced form is its least nonzero value. -/
theorem IsReduced.a_le_eval (red : f.IsReduced) {x y : ℤ} (ne : x ≠ 0 ∨ y ≠ 0) :
    f.a ≤ f.eval x y := by
  have bound := f.le_eval x y
  have unit := one_le_abs_form ne
  have hc : 0 ≤ (f.c - f.a) * |y| ^ 2 :=
    mul_nonneg (sub_nonneg.mpr red.le) (by positivity)
  have hb : 0 ≤ (f.a - |f.b|) * (|x| * |y|) :=
    mul_nonneg (sub_nonneg.mpr red.abs_b_le) (by positivity)
  have ha : f.a * 1 ≤ f.a * ((|x| - |y|) ^ 2 + |x| * |y|) :=
    mul_le_mul_of_nonneg_left unit red.pos.le
  linarith

/-- A reduced form attains its leading coefficient off the axes only when
`a = |b| = c`. -/
theorem IsReduced.diagonal_of_eval_eq (red : f.IsReduced) {x y : ℤ} (hx : x ≠ 0)
    (hy : y ≠ 0) (least : f.eval x y = f.a) : f.c = f.a ∧ |f.b| = f.a := by
  have bound := f.le_eval x y
  have unit := one_le_abs_form (Or.inl hx : x ≠ 0 ∨ y ≠ 0)
  have hy1 : 1 ≤ |y| := Int.one_le_abs hy
  have hxy : 1 ≤ |x| * |y| := one_le_mul_of_one_le_of_one_le (Int.one_le_abs hx) hy1
  have ha : f.a * 1 ≤ f.a * ((|x| - |y|) ^ 2 + |x| * |y|) :=
    mul_le_mul_of_nonneg_left unit red.pos.le
  have hc : (f.c - f.a) * 1 ≤ (f.c - f.a) * |y| ^ 2 :=
    mul_le_mul_of_nonneg_left (one_le_pow₀ hy1) (sub_nonneg.mpr red.le)
  have hb : (f.a - |f.b|) * 1 ≤ (f.a - |f.b|) * (|x| * |y|) :=
    mul_le_mul_of_nonneg_left hxy (sub_nonneg.mpr red.abs_b_le)
  have := red.le
  have := red.abs_b_le
  constructor <;> linarith

/-! ## Uniqueness of the reduced form -/

/-- Two residues modulo `2a` in the window `(-a, a]` are equal. -/
theorem eq_of_mem_window {a u v k : ℤ} (hu : -a < u ∧ u ≤ a) (hv : -a < v ∧ v ≤ a)
    (shift : u = v + 2 * a * k) : u = v := by
  have hpos : 0 < a := by omega
  have hk : k = 0 := by
    have hlt : k < 1 := by nlinarith
    have hgt : -1 < k := by nlinarith
    omega
  rw [shift, hk]
  ring

theorem Substitutes.left_ne_zero (sub : Substitutes f g p q r s) : p ≠ 0 ∨ r ≠ 0 := by
  by_contra zero
  push Not at zero
  have det := sub.det
  rw [zero.1, zero.2] at det
  norm_num at det

theorem IsReduced.a_eq_of_substitutes (hf : f.IsReduced) (hg : g.IsReduced)
    (sub : Substitutes f g p q r s) : f.a = g.a := by
  have down := hg.a_le_eval sub.left_ne_zero
  have up := hf.a_le_eval sub.symm.left_ne_zero
  rw [← sub.a_eq] at down
  rw [← sub.symm.a_eq] at up
  exact le_antisymm up down

/-- A shear moves `b` by a multiple of `2a`, so between reduced forms it is trivial. -/
theorem IsReduced.eq_of_shear (hf : f.IsReduced) (hg : g.IsReduced) (ha : f.a = g.a)
    (sub : Substitutes f g p q 0 s) : f = g := by
  have det : p * s = 1 := by linarith [sub.det]
  have hb : f.b = g.b + 2 * g.a * (p * q) := by
    rw [sub.b_eq]
    linear_combination g.b * det
  have same : f.b = g.b := eq_of_mem_window (ha ▸ hf.window) hg.window hb
  exact eq_of_disc_eq ha same sub.disc_eq hg.pos.ne'

/-- A rotation forces `a = c` and turns the sign of `b`, which the tie rule fixes. -/
theorem IsReduced.eq_of_rotation (hf : f.IsReduced) (hg : g.IsReduced) (ha : f.a = g.a)
    (sub : Substitutes f g 0 q r s) : f = g := by
  have hd := sub.disc_eq
  have hga : g.a ≠ 0 := hg.pos.ne'
  have det : q * r = -1 := by linarith [sub.det]
  have hrr : r ^ 2 = 1 := by
    rcases Int.eq_one_or_neg_one_of_mul_eq_neg_one' det with ⟨-, hr⟩ | ⟨-, hr⟩ <;>
      rw [hr] <;> norm_num
  have hgc : g.c = g.a := by
    have := sub.a_eq
    unfold eval at this
    rw [hrr] at this
    linarith
  have hgb := hg.tie hgc.symm
  have hb : f.b = -g.b + 2 * g.a * (r * s) := by
    rw [sub.b_eq, hgc]
    linear_combination g.b * det
  by_cases edge : g.b = g.a
  · have hb' : f.b = g.b + 2 * g.a * (r * s - 1) := by
      rw [hb, edge]
      ring
    exact eq_of_disc_eq ha (eq_of_mem_window (ha ▸ hf.window) hg.window hb') hd hga
  · have hneg : -g.a < -g.b ∧ -g.b ≤ g.a := by
      have := hg.window
      omega
    have hfb : f.b = -g.b := eq_of_mem_window (ha ▸ hf.window) hneg hb
    have hfc : f.c = f.a := by
      unfold disc at hd
      rw [hfb, hgc, ha] at hd
      have scaled : g.a * f.c = g.a * g.a := by linarith
      exact (mul_left_cancel₀ hga scaled).trans ha.symm
    have hfb0 := hf.tie hfc.symm
    exact eq_of_disc_eq ha (by omega) hd hga

/-- Off the axes both forms are the diagonal form `(a, a, a)`. -/
theorem IsReduced.eq_of_off_axes (hf : f.IsReduced) (hg : g.IsReduced) (ha : f.a = g.a)
    (hp : p ≠ 0) (hr : r ≠ 0) (sub : Substitutes f g p q r s) : f = g := by
  have hd := sub.disc_eq
  obtain ⟨hgc, hgb⟩ := hg.diagonal_of_eval_eq hp hr (sub.a_eq.symm.trans ha)
  have hb : g.b = g.a := by rwa [abs_of_nonneg (hg.tie hgc.symm)] at hgb
  have hfc : f.c = f.a := by
    have sq : f.b ^ 2 ≤ f.a ^ 2 := sq_le_sq' hf.lower.le hf.upper
    unfold disc at hd
    rw [hb, hgc, ← ha] at hd
    exact le_antisymm (by nlinarith [hf.pos]) hf.le
  have hfb : f.b ^ 2 = f.a ^ 2 := by
    unfold disc at hd
    rw [hb, hgc, hfc, ← ha] at hd
    linarith
  have same : f.b = g.b := by
    rw [hb, ← ha]
    exact (sq_eq_sq₀ (hf.tie hfc.symm) hf.pos.le).mp hfb
  exact eq_of_disc_eq ha same hd hg.pos.ne'

/-- Two reduced forms related by a unimodular substitution are equal. -/
theorem IsReduced.eq_of_substitutes (hf : f.IsReduced) (hg : g.IsReduced)
    (sub : Substitutes f g p q r s) : f = g := by
  have ha := hf.a_eq_of_substitutes hg sub
  by_cases hr : r = 0
  · subst hr
    exact hf.eq_of_shear hg ha sub
  · by_cases hp : p = 0
    · subst hp
      exact hf.eq_of_rotation hg ha sub
    · exact hf.eq_of_off_axes hg ha hp hr sub

theorem IsReduced.eq_of_equivalent (hf : f.IsReduced) (hg : g.IsReduced)
    (eqv : Equivalent f g) : f = g := by
  obtain ⟨p, q, r, s, sub⟩ := eqv
  exact hf.eq_of_substitutes hg sub

end BinaryForm

end Theory
