import GroupAccumulator.Theory.BinaryForm
import GroupAccumulator.Theory.IdealSimilarity
import Mathlib.Algebra.QuadraticAlgebra.Basic

/-!
# Forms of odd discriminant as ideals of a quadratic order

The order of discriminant `1 + 4 m` is `ℤ[ω]` with `ω² = m + ω`.  A form
`(a, b, c)` of that discriminant has the ideal spanned by `a` and
`(b - 1) / 2 + ω`, a root of `X² - b X + a c`.

* `similar_of_equivalent`: properly equivalent forms have similar ideals.
* `equivalent_of_similar`: for a negative discriminant and positive leading
  coefficients, similar ideals come from properly equivalent forms; the norm
  and the oriented area of the two lattices pin the determinant to one.
* `eq_of_similar`: reduced forms with similar ideals are equal.
-/

namespace Theory

open scoped nonZeroDivisors

/-- The quadratic order of discriminant `1 + 4 m`. -/
abbrev Order (m : ℤ) := QuadraticAlgebra ℤ m 1

namespace BinaryForm

variable {m : ℤ} {f g : BinaryForm} {p q r s : ℤ}

/-- The discriminant of `f` is that of the order. -/
def OfDisc (m : ℤ) (f : BinaryForm) : Prop := f.disc = 1 + 4 * m

/-- The root `(b + √disc) / 2`. -/
def root (f : BinaryForm) : Order m := ⟨(f.b - 1) / 2, 1⟩

/-- The ideal of a form. -/
def ideal (m : ℤ) (f : BinaryForm) : Ideal (Order m) := Ideal.span {(f.a : Order m), root f}

/-! ## The middle coefficient is odd -/

theorem OfDisc.b_eq (hf : OfDisc m f) : f.b = 2 * ((f.b - 1) / 2) + 1 := by
  have odd : f.b % 2 = 1 := by
    unfold OfDisc disc at hf
    cases Int.emod_two_eq_zero_or_one f.b with
    | inl even =>
      obtain ⟨k, hk⟩ := Int.dvd_of_emod_eq_zero even
      rw [hk] at hf
      have : 4 * (k ^ 2 - f.a * f.c - m) = 1 := by linarith
      omega
    | inr odd => exact odd
  omega

theorem OfDisc.ac_eq (hf : OfDisc m f) :
    f.a * f.c = ((f.b - 1) / 2) ^ 2 + (f.b - 1) / 2 - m := by
  have hb := hf.b_eq
  unfold OfDisc disc at hf
  generalize (f.b - 1) / 2 = e at *
  rw [hb] at hf
  linarith

theorem OfDisc.root_mul_root (hf : OfDisc m f) :
    (root f : Order m) * root f =
      (f.b : Order m) * root f - (f.a : Order m) * (f.c : Order m) := by
  have hb := hf.b_eq
  have hac := hf.ac_eq
  unfold root
  generalize (f.b - 1) / 2 = e at *
  ext
  · simp
    rw [hb]
    linarith
  · simp
    linarith

/-- Roots of two forms whose middle coefficients differ by `2 d`. -/
theorem root_eq_add (hf : OfDisc m f) (hg : OfDisc m g) {d : ℤ}
    (shift : g.b = f.b - 2 * d) : (root f : Order m) = root g + (d : Order m) := by
  have h1 := hf.b_eq
  have h2 := hg.b_eq
  unfold root
  ext
  · simp
    omega
  · simp

/-! ## Lattice coordinates -/

/-- The lattice vector of `f` with coordinates `(x, y)`. -/
def vec (m : ℤ) (f : BinaryForm) (x y : ℤ) : Order m :=
  (x : Order m) * (f.a : Order m) + (y : Order m) * root f

theorem vec_re (x y : ℤ) : (vec m f x y).re = x * f.a + y * ((f.b - 1) / 2) := by
  simp [vec, root]

theorem vec_im (x y : ℤ) : (vec m f x y).im = y := by
  simp [vec, root]

theorem vec_combination (x y p q r s : ℤ) :
    vec m f (p * x + q * y) (r * x + s * y) =
      (x : Order m) * vec m f p r + (y : Order m) * vec m f q s := by
  unfold vec
  push_cast
  ring

/-- The ideal of a form is its lattice: closure under `ω` costs no generator. -/
theorem mem_ideal_iff (hf : OfDisc m f) {z : Order m} :
    z ∈ ideal m f ↔ ∃ x y : ℤ, z = vec m f x y := by
  have hb := hf.b_eq
  have hac := hf.ac_eq
  unfold ideal
  rw [Ideal.mem_span_pair]
  constructor
  · intro h
    rcases h with ⟨v, w, rfl⟩
    refine ⟨v.re - v.im * ((f.b - 1) / 2) - w.im * f.c,
      v.im * f.a + w.re + w.im * ((f.b - 1) / 2) + w.im, ?_⟩
    unfold root
    ext
    · rw [vec_re]
      generalize (f.b - 1) / 2 = e at *
      simp
      linear_combination w.im * hac
    · rw [vec_im]
      simp
      ring
  · intro h
    rcases h with ⟨x, y, rfl⟩
    exact ⟨x, y, rfl⟩

/-- The norm form of the lattice is `a` times the form. -/
theorem norm_vec (hf : OfDisc m f) (x y : ℤ) :
    QuadraticAlgebra.norm (vec m f x y) = f.a * f.eval x y := by
  have hb := hf.b_eq
  have hac := hf.ac_eq
  rw [QuadraticAlgebra.norm_def, vec_re, vec_im]
  unfold eval
  generalize (f.b - 1) / 2 = e at *
  rw [hb]
  linear_combination (-y ^ 2) * hac

/-- The oriented area spanned by two elements of the order. -/
def area (z v : Order m) : ℤ := (star z * v).im

theorem area_mul (c z v : Order m) :
    area (c * z) (c * v) = QuadraticAlgebra.norm c * area z v := by
  unfold area
  rw [QuadraticAlgebra.norm_def]
  simp
  ring

theorem area_vec (p q r s : ℤ) :
    area (vec m f p r) (vec m f q s) = (p * s - q * r) * f.a := by
  unfold area
  simp [vec_re, vec_im]
  ring

theorem norm_pos (negative : 1 + 4 * m < 0) {z : Order m} (hz : z ∈ (Order m)⁰) :
    0 < QuadraticAlgebra.norm z := by
  have ne := nonZeroDivisors.ne_zero (QuadraticAlgebra.norm_mem_nonZeroDivisors_iff.mpr hz)
  rw [QuadraticAlgebra.norm_def] at ne ⊢
  refine lt_of_le_of_ne ?_ ne.symm
  nlinarith [sq_nonneg (2 * z.re + z.im), sq_nonneg z.im]

theorem intCast_mem_nonZeroDivisors {n : ℤ} (ne : n ≠ 0) : (n : Order m) ∈ (Order m)⁰ := by
  rw [← QuadraticAlgebra.norm_mem_nonZeroDivisors_iff, QuadraticAlgebra.norm_intCast]
  exact mem_nonZeroDivisors_of_ne_zero (pow_ne_zero 2 ne)

/-! ## Equivalent forms have similar ideals -/

/-- A unimodular change of coordinates spans the same ideal. -/
theorem ideal_eq_span_vec (det : p * s - q * r = 1) :
    ideal m g = Ideal.span {vec m g p r, vec m g q s} := by
  have detR : (p : Order m) * (s : Order m) - (q : Order m) * (r : Order m) = 1 := by
    exact_mod_cast det
  apply le_antisymm <;> rw [ideal, Ideal.span_le] <;> rintro v (rfl | rfl) <;>
    rw [SetLike.mem_coe, Ideal.mem_span_pair] <;> unfold vec
  · exact ⟨s, -r, by linear_combination (g.a : Order m) * detR⟩
  · exact ⟨-q, p, by linear_combination (root g : Order m) * detR⟩
  · exact ⟨p, r, rfl⟩
  · exact ⟨q, s, rfl⟩

theorem star_vec_mul_vec (hf : OfDisc m f) (hg : OfDisc m g) (sub : Substitutes f g p q r s) :
    star (vec m g p r) * vec m g q s = (g.a : Order m) * root f := by
  have hfb := hf.b_eq
  have hgb := hg.b_eq
  have hac := hg.ac_eq
  have hb := sub.b_eq
  have det := sub.det
  unfold root
  ext
  · simp [vec_re, vec_im]
    generalize (f.b - 1) / 2 = e at *
    generalize (g.b - 1) / 2 = e' at *
    have he : e = g.a * p * q + e' * (p * s + q * r) + q * r + g.c * r * s := by
      rw [hfb, hgb] at hb
      linarith
    rw [he]
    linear_combination (-(r * s)) * hac
  · simp [vec_re, vec_im]
    linear_combination g.a * det

/-- Multiplying the lattice of `g` by the conjugate of its first new basis vector
gives `g.a` times the lattice of `f`. -/
theorem similar_of_substitutes (hf : OfDisc m f) (hg : OfDisc m g) (nf : f.a ≠ 0)
    (ng : g.a ≠ 0) (sub : Substitutes f g p q r s) : SimilarIdeals (ideal m f) (ideal m g) := by
  have norm_eq : QuadraticAlgebra.norm (vec m g p r) = g.a * f.a := by
    rw [norm_vec hg, ← sub.a_eq]
  have first : star (vec m g p r) * vec m g p r = (g.a : Order m) * (f.a : Order m) := by
    rw [mul_comm, ← QuadraticAlgebra.algebraMap_norm_eq_mul_star, norm_eq]
    simp
  have hv : star (vec m g p r) ∈ (Order m)⁰ := by
    rw [← QuadraticAlgebra.norm_mem_nonZeroDivisors_iff, QuadraticAlgebra.norm_star, norm_eq]
    exact mem_nonZeroDivisors_of_ne_zero (mul_ne_zero ng nf)
  refine ⟨_, intCast_mem_nonZeroDivisors ng, _, hv, ?_⟩
  rw [ideal_eq_span_vec sub.det (g := g), ideal, Ideal.span_mul_span', Ideal.span_mul_span',
    Set.singleton_mul, Set.singleton_mul, Set.image_pair, Set.image_pair, first,
    star_vec_mul_vec hf hg sub]

theorem similar_of_equivalent (hf : OfDisc m f) (hg : OfDisc m g) (nf : f.a ≠ 0)
    (ng : g.a ≠ 0) (eqv : Equivalent f g) : SimilarIdeals (ideal m f) (ideal m g) := by
  obtain ⟨p, q, r, s, sub⟩ := eqv
  exact similar_of_substitutes hf hg nf ng sub

/-! ## Units and inverses -/

/-- A form that represents one by its leading coefficient has the whole order. -/
theorem ideal_eq_one (one : f.a = 1) : ideal m f = 1 := by
  rw [ideal, one, Ideal.one_eq_top, Ideal.eq_top_iff_one]
  exact Ideal.subset_span (by simp)

theorem OfDisc.opposite (hf : OfDisc m f) : OfDisc m f.opposite := by
  unfold OfDisc disc BinaryForm.opposite at *
  linarith

/-- The ideals of a primitive form and of its opposite multiply to a principal one. -/
theorem ideal_mul_ideal_opposite (hf : OfDisc m f) (prim : Primitive f) :
    ideal m f * ideal m f.opposite = Ideal.span {(f.a : Order m)} := by
  have rootOpp : (root f.opposite : Order m) = root f - (f.b : Order m) := by
    have shift : f.opposite.b = f.b - 2 * f.b := by
      unfold opposite
      ring
    rw [root_eq_add hf hf.opposite shift]
    ring
  have square := hf.root_mul_root
  obtain ⟨x, y, z, unit⟩ := prim
  have unitR : (x : Order m) * f.a + (y : Order m) * f.b + (z : Order m) * f.c = 1 := by
    exact_mod_cast unit
  unfold ideal
  rw [Ideal.span_pair_mul_span_pair, rootOpp]
  change Ideal.span {(f.a : Order m) * (f.a : Order m), _, root f * (f.a : Order m), _} = _
  apply le_antisymm
  · rw [Ideal.span_le]
    rintro v (rfl | rfl | rfl | rfl) <;> rw [SetLike.mem_coe, Ideal.mem_span_singleton]
    · exact Dvd.intro _ rfl
    · exact Dvd.intro _ rfl
    · exact Dvd.intro_left _ rfl
    · exact ⟨-(f.c : Order m), by linear_combination square⟩
  · rw [Ideal.span_singleton_le_iff_mem]
    -- `a = x a² + y (a r - a (r - b)) - z r (r - b)`, the last product being `-a c`
    set I := Ideal.span {(f.a : Order m) * (f.a : Order m),
      (f.a : Order m) * (root f - (f.b : Order m)), root f * (f.a : Order m),
      root f * (root f - (f.b : Order m))}
    have g1 : (f.a : Order m) * (f.a : Order m) ∈ I := Ideal.subset_span (by simp)
    have g2 : (f.a : Order m) * (root f - (f.b : Order m)) ∈ I := Ideal.subset_span (by simp)
    have g3 : root f * (f.a : Order m) ∈ I := Ideal.subset_span (by simp)
    have g4 : root f * (root f - (f.b : Order m)) ∈ I := Ideal.subset_span (by simp)
    have combined := I.sub_mem (I.add_mem (I.mul_mem_left x g1)
      (I.mul_mem_left y (I.sub_mem g3 g2))) (I.mul_mem_left z g4)
    convert combined using 1
    linear_combination (-(f.a : Order m)) * unitR + z * square

/-! ## Similar ideals come from equivalent forms -/

/-- A similarity moves every lattice vector of `f` to a multiple of one of `g`. -/
theorem exists_vec_of_span_mul_eq (hf : OfDisc m f) (hg : OfDisc m g) {α β : Order m}
    (eq : Ideal.span {α} * ideal m f = Ideal.span {β} * ideal m g) (x y : ℤ) :
    ∃ x' y', α * vec m f x y = β * vec m g x' y' := by
  have member : α * vec m f x y ∈ Ideal.span {α} * ideal m f :=
    Ideal.mul_mem_mul (Ideal.mem_span_singleton_self α) ((mem_ideal_iff hf).mpr ⟨x, y, rfl⟩)
  rw [eq, Ideal.mem_span_singleton_mul] at member
  obtain ⟨z, hz, scaled⟩ := member
  obtain ⟨x', y', rfl⟩ := (mem_ideal_iff hg).mp hz
  exact ⟨x', y', scaled.symm⟩

/-- The areas of the two lattices force the change of basis to have determinant
one. -/
theorem det_eq_one_of_vec (negative : 1 + 4 * m < 0) (pf : 0 < f.a) (pg : 0 < g.a)
    {α β : Order m} (hα : α ∈ (Order m)⁰) (hβ : β ∈ (Order m)⁰) {p' q' r' s' : ℤ}
    (out1 : α * vec m f 1 0 = β * vec m g p r) (out2 : α * vec m f 0 1 = β * vec m g q s)
    (back1 : β * vec m g 1 0 = α * vec m f p' r')
    (back2 : β * vec m g 0 1 = α * vec m f q' s') : p * s - q * r = 1 := by
  have hA : 0 < QuadraticAlgebra.norm α * f.a := mul_pos (norm_pos negative hα) pf
  have hB : 0 < QuadraticAlgebra.norm β * g.a := mul_pos (norm_pos negative hβ) pg
  have out := congrArg₂ area out1 out2
  have back := congrArg₂ area back1 back2
  rw [area_mul, area_mul, area_vec, area_vec] at out back
  have prod : (p * s - q * r) * (p' * s' - q' * r') = 1 := by
    apply mul_left_cancel₀ hA.ne'
    linear_combination (-1) * out - (p * s - q * r) * back
  have pos : 0 < p * s - q * r := by
    by_contra neg
    nlinarith
  exact (Int.eq_one_or_neg_one_of_mul_eq_one prod).resolve_right (by omega)

theorem Substitutes.of_vec (hf : OfDisc m f) (hg : OfDisc m g) (negative : 1 + 4 * m < 0)
    (pf : 0 < f.a) {α β : Order m} (hα : α ∈ (Order m)⁰) (det : p * s - q * r = 1)
    (out1 : α * vec m f 1 0 = β * vec m g p r) (out2 : α * vec m f 0 1 = β * vec m g q s) :
    Substitutes f g p q r s := by
  have hA : 0 < QuadraticAlgebra.norm α * f.a := mul_pos (norm_pos negative hα) pf
  have scale : QuadraticAlgebra.norm α * f.a = QuadraticAlgebra.norm β * g.a := by
    have out := congrArg₂ area out1 out2
    rw [area_mul, area_mul, area_vec, area_vec, det] at out
    linarith
  have value (x y : ℤ) : f.eval x y = g.eval (p * x + q * y) (r * x + s * y) := by
    have split : vec m f x y = (x : Order m) * vec m f 1 0 + (y : Order m) * vec m f 0 1 := by
      simpa using vec_combination (f := f) (m := m) x y 1 0 0 1
    have moved : α * vec m f x y = β * vec m g (p * x + q * y) (r * x + s * y) := by
      rw [split, vec_combination]
      linear_combination (x : Order m) * out1 + (y : Order m) * out2
    have norms := congrArg QuadraticAlgebra.norm moved
    rw [map_mul, map_mul, norm_vec hf, norm_vec hg] at norms
    apply mul_left_cancel₀ hA.ne'
    linear_combination norms - g.eval (p * x + q * y) (r * x + s * y) * scale
  -- the values at `(1, 0)`, `(0, 1)` and `(1, 1)` are the three coefficients
  refine ⟨det, ?_, ?_, ?_⟩
  · simpa [eval] using value 1 0
  · have v10 := value 1 0
    have v01 := value 0 1
    have v11 := value 1 1
    unfold eval at v10 v01 v11
    linarith
  · simpa [eval] using value 0 1

theorem equivalent_of_similar (hf : OfDisc m f) (hg : OfDisc m g) (negative : 1 + 4 * m < 0)
    (pf : 0 < f.a) (pg : 0 < g.a) (sim : SimilarIdeals (ideal m f) (ideal m g)) :
    Equivalent f g := by
  obtain ⟨α, hα, β, hβ, eq⟩ := sim
  obtain ⟨p, r, out1⟩ := exists_vec_of_span_mul_eq hf hg eq 1 0
  obtain ⟨q, s, out2⟩ := exists_vec_of_span_mul_eq hf hg eq 0 1
  obtain ⟨p', r', back1⟩ := exists_vec_of_span_mul_eq hg hf eq.symm 1 0
  obtain ⟨q', s', back2⟩ := exists_vec_of_span_mul_eq hg hf eq.symm 0 1
  have det := det_eq_one_of_vec negative pf pg hα hβ out1 out2 back1 back2
  exact ⟨p, q, r, s, .of_vec hf hg negative pf hα det out1 out2⟩

/-- Reduced forms of one negative discriminant with similar ideals are equal. -/
theorem eq_of_similar (hf : OfDisc m f) (hg : OfDisc m g) (negative : 1 + 4 * m < 0)
    (rf : f.IsReduced) (rg : g.IsReduced) (sim : SimilarIdeals (ideal m f) (ideal m g)) : f = g :=
  rf.eq_of_equivalent rg (equivalent_of_similar hf hg negative rf.pos rg.pos sim)

end BinaryForm

end Theory
