import GroupAccumulator.Theory.QuadraticOrder

/-!
# Gauss composition as ideal multiplication

`Composition f g h w s t u k l n` lists the integer identities a composition
algorithm leaves behind: `w` is a common factor of the two leading coefficients
and of the half sum of the middle ones, and the middle coefficient of `h` is
congruent to those of `f` and `g`.  From these identities alone the product of
the ideals of `f` and `g` is `w` times the ideal of `h`.
-/

namespace Theory

namespace BinaryForm

variable {m : ℤ} {f g h : BinaryForm} {w s t u k l n : ℤ}

/-- The integer data relating `f` and `g` to the form `h` composed of them. -/
structure Composition (f g h : BinaryForm) (w s t u k l n : ℤ) : Prop where
  left_a : f.a = w * s
  right_a : g.a = w * t
  out_a : h.a = s * t
  mid : f.b + g.b = 2 * (w * u)
  out_left : h.b = f.b - 2 * (l * s)
  out_right : h.b = g.b - 2 * (k * t)
  out_c : h.c = k * l - w * n
  left_c : u * l = n * t + f.c
  coprime : ∃ x y z : ℤ, x * s + y * t + z * u = 1

/-- A composed form has the discriminant of its left factor. -/
theorem Composition.disc_eq (comp : Composition f g h w s t u k l n) : h.disc = f.disc := by
  have mid := comp.mid
  have outLeft := comp.out_left
  have outRight := comp.out_right
  have gap : f.b = w * u - k * t + l * s := by linarith
  unfold disc
  rw [outLeft, comp.out_a, comp.out_c, comp.left_a, gap]
  linear_combination (-4 * w * s) * comp.left_c

theorem Composition.root_mul_root (comp : Composition f g h w s t u k l n) (hf : OfDisc m f)
    (hg : OfDisc m g) (hh : OfDisc m h) :
    (root f : Order m) * root g =
      (u : Order m) * ((w : Order m) * root h) +
        (n : Order m) * ((w : Order m) * (h.a : Order m)) := by
  have rootF : (root f : Order m) = root h + ((l * s : ℤ) : Order m) :=
    root_eq_add hf hh comp.out_left
  have rootG : (root g : Order m) = root f + ((k * t - l * s : ℤ) : Order m) := by
    rw [root_eq_add hg hh comp.out_right, rootF]
    push_cast
    ring
  have mid : (f.b : Order m) + ((k * t - l * s : ℤ) : Order m) = (w : Order m) * u := by
    have := comp.mid
    have := comp.out_left
    have := comp.out_right
    have sum : f.b + (k * t - l * s) = w * u := by linarith
    exact_mod_cast sum
  have leftC : (u : Order m) * (l : Order m) = n * t + f.c := by exact_mod_cast comp.left_c
  have leftA : (f.a : Order m) = (w : Order m) * s := by exact_mod_cast comp.left_a
  calc (root f : Order m) * root g
      = root f * root f + ((k * t - l * s : ℤ) : Order m) * root f := by
        rw [rootG]
        ring
    _ = ((f.b : Order m) + ((k * t - l * s : ℤ) : Order m)) * root f -
          (f.a : Order m) * (f.c : Order m) := by
        rw [hf.root_mul_root]
        ring
    _ = (u : Order m) * ((w : Order m) * root h) +
          (n : Order m) * ((w : Order m) * (h.a : Order m)) := by
        rw [mid, leftA, rootF, comp.out_a]
        push_cast
        linear_combination ((w : Order m) * s) * leftC

/-- Primitivity of the left factor makes the leading minors unimodular. -/
theorem Composition.minors (comp : Composition f g h w s t u k l n) (prim : Primitive f) :
    ∃ x y z : ℤ, x * w + y * (s * l - t * k) + z * (u * l - t * n) = 1 := by
  obtain ⟨x, y, z, unit⟩ := prim
  have hb : f.b = w * u + (s * l - t * k) := by
    have := comp.mid
    have := comp.out_left
    have := comp.out_right
    linarith
  refine ⟨x * s + y * u, y, z, ?_⟩
  rw [comp.left_a, hb] at unit
  linear_combination unit + z * comp.left_c

/-- The product of the ideals is `w` times the ideal of the composed form. -/
theorem Composition.ideal_mul (comp : Composition f g h w s t u k l n) (hf : OfDisc m f)
    (hg : OfDisc m g) (hh : OfDisc m h) (prim : Primitive f) :
    ideal m f * ideal m g = Ideal.span {(w : Order m)} * ideal m h := by
  set X : Order m := (w : Order m) * (h.a : Order m) with hX
  set Y : Order m := (w : Order m) * root h with hY
  have aa : (f.a : Order m) * (g.a : Order m) = (w : Order m) * X := by
    rw [hX, comp.left_a, comp.right_a, comp.out_a]
    push_cast
    ring
  have ar : (f.a : Order m) * root g = (s : Order m) * Y + (k : Order m) * X := by
    rw [hX, hY, root_eq_add hg hh comp.out_right, comp.left_a, comp.out_a]
    push_cast
    ring
  have ra : root f * (g.a : Order m) = (t : Order m) * Y + (l : Order m) * X := by
    rw [hX, hY, root_eq_add hf hh comp.out_left, comp.right_a, comp.out_a]
    push_cast
    ring
  have rr : (root f : Order m) * root g = (u : Order m) * Y + (n : Order m) * X :=
    comp.root_mul_root hf hg hh
  have rows : ∃ x y z : Order m, x * s + y * t + z * u = 1 := by
    obtain ⟨x, y, z, row⟩ := comp.coprime
    exact ⟨x, y, z, by exact_mod_cast row⟩
  have minors : ∃ x y z : Order m, x * w + y * (s * l - t * k) + z * (u * l - t * n) = 1 := by
    obtain ⟨x, y, z, minor⟩ := comp.minors prim
    exact ⟨x, y, z, by exact_mod_cast minor⟩
  calc ideal m f * ideal m g
      = Ideal.span {(f.a : Order m) * (g.a : Order m), (f.a : Order m) * root g,
          root f * (g.a : Order m), root f * root g} := Ideal.span_pair_mul_span_pair _ _ _ _
    _ = Ideal.span {X, Y} := by
        rw [aa, ar, ra, rr]
        exact span_four_eq_span_pair rows minors
    _ = Ideal.span {(w : Order m)} * ideal m h := by
        rw [ideal, Ideal.span_mul_span', Set.singleton_mul, Set.image_pair]

theorem Composition.similar (comp : Composition f g h w s t u k l n) (hf : OfDisc m f)
    (hg : OfDisc m g) (hh : OfDisc m h) (prim : Primitive f) (hw : w ≠ 0) :
    SimilarIdeals (ideal m f * ideal m g) (ideal m h) :=
  .of_eq_span_mul (intCast_mem_nonZeroDivisors hw) (comp.ideal_mul hf hg hh prim)

end BinaryForm

end Theory
