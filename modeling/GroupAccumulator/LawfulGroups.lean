import GroupAccumulator.Theory.CanonicalGroup
import GroupAccumulator.ClassExponent
import GroupAccumulator.ClassInvariant
import GroupAccumulator.Rsa2048Group

/-!
# The implementations are lawful groups

The accumulator is stated over an abelian group with the implementation's own `exp`.
Here the two implementations on integers are shown to be such groups.  `Computes` says
what that means for functions that may panic or not return: on the values of a lawful
group they return the values of the group's operations.  There an inverse is only asked
for as an argument of `op_`, where all callers use it: `ClassGroup` returns inverses that
are not reduced.  Those of `Rsa2048` are canonical.

* `class_group_lawful`: the reduced elements of a discriminant;
* `rsa_lawful`: the canonical elements of an odd modulus.

Whatever is put together from the calls then returns what the group says
(`Computes.run`).
-/

namespace GroupAccumulator

open Theory

/-! ## Implementations of a lawful group -/

/-- The functions an implementation of `UnknownOrderGroup` offers. -/
structure UnknownOrderFns (E : Type) extends GroupFns E where
  exp_ : ℕ → E → ℤ → Exec E
  unknownOrderElem_ : Exec E

/-- On the values of a lawful group the functions return the values of its operations. -/
structure Computes {A E : Type} [AbelianUnknownOrderGroup A] (F : UnknownOrderFns E)
    (val : A → E) : Prop where
  injective : Function.Injective val
  id_ : F.id_ = .ok (val GroupTrait.id)
  op_ : ∀ a b, Returns (fun fuel => F.op_ fuel (val a) (val b)) (val (op a b))
  exp_ : ∀ a n, Returns (fun fuel => F.exp_ fuel (val a) n) (val (exp a n))
  div : ∀ a b, ∃ i, F.inv_ (val b) = .ok i ∧
    Returns (fun fuel => F.op_ fuel (val a) i) (val (op a (inv b)))
  unknownOrderElem_ : F.unknownOrderElem_ = .ok (val unknownOrderElem)

/-- What callers put together from the functions. -/
inductive GroupCalls (ι : Type)
  | var (i : ι)
  | id
  | unknownOrderElem
  | op (left right : GroupCalls ι)
  | exp (base : GroupCalls ι) (n : ℤ)
  /-- `op(left, inv(right))` -/
  | div (left right : GroupCalls ι)

namespace GroupCalls

variable {ι A E : Type}

/-- The value in a lawful group. -/
def eval [AbelianUnknownOrderGroup A] (env : ι → A) : GroupCalls ι → A
  | .var i => env i
  | .id => GroupTrait.id
  | .unknownOrderElem => UnknownOrderGroup.unknownOrderElem
  | .op l r => GroupTrait.op (l.eval env) (r.eval env)
  | .exp a n => GroupTrait.exp (a.eval env) n
  | .div l r => GroupTrait.op (l.eval env) (GroupTrait.inv (r.eval env))

/-- The calls made, inner ones first. -/
def run (F : UnknownOrderFns E) (fuel : ℕ) (env : ι → E) : GroupCalls ι → Exec E
  | .var i => return env i
  | .id => F.id_
  | .unknownOrderElem => F.unknownOrderElem_
  | .op l r => do
    F.op_ fuel (← l.run F fuel env) (← r.run F fuel env)
  | .exp a n => do
    F.exp_ fuel (← a.run F fuel env) n
  | .div l r => do
    let left ← l.run F fuel env
    let right ← r.run F fuel env
    F.op_ fuel left (← F.inv_ right)

end GroupCalls

/-- Calls put together return the value of the whole. -/
theorem Computes.run {ι A E : Type} [AbelianUnknownOrderGroup A] {F : UnknownOrderFns E}
    {val : A → E} (computes : Computes F val) (env : ι → A) (calls : GroupCalls ι) :
    Returns (fun fuel => calls.run F fuel fun i => val (env i)) (val (calls.eval env)) := by
  induction calls with
  | var i => exact Returns.of_eq fun _ => rfl
  | id => exact Returns.of_eq fun _ => computes.id_
  | unknownOrderElem => exact Returns.of_eq fun _ => computes.unknownOrderElem_
  | op l r left right => exact left.bind (right.bind (computes.op_ _ _))
  | exp a n base => exact base.bind (computes.exp_ _ n)
  | div l r left right =>
    obtain ⟨i, inverted, divided⟩ := computes.div (l.eval env) (r.eval env)
    refine left.bind (right.bind ?_)
    simp only [inverted]
    exact divided

/-! ## The class group -/

namespace ClassGroup

variable {D : ℤ} {x y z : ClassElem}

/-- The ideal class of a form. -/
def classOf (D : ℤ) (x : ClassElem) : (similarCon (Order (orderParam D))).Quotient :=
  (idealOf D x : (similarCon (Order (orderParam D))).Quotient)

/-- The functions `ClassGroup` supplies. -/
def unknownOrderFns (R : Rug) (D : ℤ) : UnknownOrderFns ClassElem where
  toGroupFns := groupFns R D
  exp_ := exp_ R D
  unknownOrderElem_ := .ok (unknownOrderElem_ D)

theorem op_classOf (R : Rug) (hD : IsDiscriminant D) (hx : x.Valid D)
    (hy : y.Valid D) : ∃ z, Returns (fun fuel => op_ R D fuel x y) z ∧ z.Reduced D ∧
      classOf D z = classOf D x * classOf D y := by
  obtain ⟨z, returns, hz, sim⟩ := op_returns R hD hx hy
  exact ⟨z, returns, hz, coe_eq_iff_similar.mpr sim.symm⟩

theorem classOf_id (D : ℤ) : classOf D (id_ D) = 1 := by
  unfold classOf
  rw [idealOf_id]
  rfl

theorem classOf_inv_mul (hD : IsDiscriminant D) (hx : x.Valid D) :
    classOf D (inv_ x) * classOf D x = 1 := by
  rw [← classOf_id D, mul_comm]
  exact coe_eq_iff_similar.mpr (idealOf_mul_inv hD hx)

theorem eq_of_classOf_eq (hD : IsDiscriminant D) (hx : x.Reduced D)
    (hy : y.Reduced D) (same : classOf D x = classOf D y) : x = y :=
  hx.eq_of_similar hD hy (coe_eq_iff_similar.mp same)

/-- Every class that is met has one reduced element. -/
theorem canonicals (R : Rug) (hD : IsDiscriminant D) :
    Canonicals fun x : {x : ClassElem // x.Reduced D} => classOf D x.1 where
  injective x y same := Subtype.ext (eq_of_classOf_eq hD x.2 y.2 same)
  one := ⟨⟨id_ D, id_reduced hD⟩, classOf_id D⟩
  mul x y := by
    obtain ⟨z, -, hz, product⟩ := op_classOf R hD x.2.toValid y.2.toValid
    exact ⟨⟨z, hz⟩, product⟩
  inv x := by
    obtain ⟨z, -, hz, product⟩ :=
      op_classOf R hD (id_reduced hD).toValid (inv_valid x.2.toValid)
    refine ⟨⟨z, hz⟩, ?_⟩
    rw [product, classOf_id, one_mul, classOf_inv_mul hD x.2.toValid]

/-- The default `exp_` and the class group's own return the same element. -/
theorem exp_and_default (R : Rug) (hD : IsDiscriminant D) (hx : x.Reduced D) (n : ℤ) :
    ∃ r, Returns (fun fuel => exp_ R D fuel x n) r ∧
      Returns (fun fuel => (groupFns R D).exp_ fuel x n) r := by
  have hid := (id_reduced hD).toValid
  have hbase := coprime_of_reduced hD hx
  by_cases negative : n < 0
  · obtain ⟨r, special, default⟩ :=
      expLoop_eq_default R hD (by omega : 0 ≤ -n) hid (inv_coprime hbase)
    refine ⟨r, ?_, ?_⟩
    · simpa only [exp_, if_pos negative] using special
    · simp only [GroupFns.exp_, if_pos negative]
      exact default
  · obtain ⟨r, special, default⟩ := expLoop_eq_default R hD (not_lt.mp negative) hid hbase
    refine ⟨r, ?_, ?_⟩
    · simpa only [exp_, if_neg negative] using special
    · simp only [GroupFns.exp_, if_neg negative]
      exact default

/-- A reduced element in the class of a product is what `op_` returns. -/
theorem op_of_classOf (R : Rug) (hD : IsDiscriminant D) (hx : x.Valid D) (hy : y.Valid D)
    (hz : z.Reduced D) (product : classOf D z = classOf D x * classOf D y) :
    Returns (fun fuel => op_ R D fuel x y) z := by
  obtain ⟨r, returns, hr, same⟩ := op_classOf R hD hx hy
  rw [← eq_of_classOf_eq hD hr hz (same.trans product.symm)]
  exact returns

/-- The group of the reduced elements, with the element of the trait's constant. -/
@[reducible] noncomputable def reducedGroup (R : Rug) (hD : IsDiscriminant D)
    (residue : D % 8 = 1) (large : D < -7) :
    AbelianUnknownOrderGroup {x : ClassElem // x.Reduced D} :=
  .ofCommGroup (canonicals R hD).commGroup
    ⟨unknownOrderElem_ D, unknownOrderElem_reduced residue large⟩

section

variable (R : Rug) (hD : IsDiscriminant D) (residue : D % 8 = 1) (large : D < -7)

/-- A valid element stands for the reduced one in its class. -/
def StandsFor (x : ClassElem) (a : {x : ClassElem // x.Reduced D}) : Prop :=
  x.Valid D ∧ classOf D x = classOf D a.1

include residue large in
theorem classOf_inv_eq {a : {x : ClassElem // x.Reduced D}} (stands : StandsFor x a) :
    letI := reducedGroup R hD residue large
    classOf D (inv_ x) = classOf D (inv a).1 := by
  have left := classOf_inv_mul hD stands.1
  rw [stands.2] at left
  have right := (canonicals R hD).cls_inv a
  rw [mul_comm] at left right
  exact inv_unique left right

/-- The functions realize the group of the reduced elements. -/
theorem realizes :
    letI := reducedGroup R hD residue large
    (groupFns R D).Realizes (StandsFor (D := D)) := by
  let := reducedGroup R hD residue large
  refine ⟨⟨id_ D, rfl, (id_reduced hD).toValid, ?_⟩, ?_, ?_⟩
  · exact (classOf_id D).trans (canonicals R hD).cls_one.symm
  · intro x y a b hx hy
    obtain ⟨z, returns, hz, product⟩ := op_classOf R hD hx.1 hy.1
    refine ⟨z, returns, hz.toValid, ?_⟩
    rw [product, hx.2, hy.2]
    exact ((canonicals R hD).cls_mul a b).symm
  · intro x a hx
    exact ⟨inv_ x, rfl, inv_valid hx.1, classOf_inv_eq R hD residue large hx⟩

/-- On reduced elements every function of the trait returns, and with `inv_` applied
inside `op_` their values are those of the group. -/
theorem computes :
    letI := reducedGroup R hD residue large
    Computes (unknownOrderFns R D) (Subtype.val : {x : ClassElem // x.Reduced D} → ClassElem) := by
  let := reducedGroup R hD residue large
  refine ⟨Subtype.val_injective, ?_, ?_, ?_, ?_, rfl⟩
  · have one := (canonicals R hD).cls_one
    exact congrArg Except.ok
      (eq_of_classOf_eq hD (id_reduced hD) (Subtype.prop _) ((classOf_id D).trans one.symm))
  · intro a b
    exact op_of_classOf R hD a.2.toValid b.2.toValid (Subtype.prop _)
      ((canonicals R hD).cls_mul a b)
  · intro a n
    obtain ⟨r, special, default⟩ := exp_and_default R hD a.2 n
    obtain ⟨c, power, hc⟩ := (realizes R hD residue large).exp_ ⟨a.2.toValid, rfl⟩ n
    rw [power.unique default] at hc
    obtain ⟨fuel, run⟩ := special.exists_eq
    rw [eq_of_classOf_eq hD (reduced_of_exp hD run) (Subtype.prop _) hc.2] at special
    exact special
  · intro a b
    refine ⟨inv_ b.1, rfl, ?_⟩
    apply op_of_classOf R hD a.2.toValid (inv_valid b.2.toValid) (Subtype.prop _)
    rw [classOf_inv_eq R hD residue large ⟨b.2.toValid, rfl⟩]
    exact (canonicals R hD).cls_mul a (inv b)

end

/-- The reduced elements of a discriminant are a commutative group with an element of
unknown order: `op_`, `exp_` and division return its values for all arguments, and so does
everything callers put together from them. -/
theorem class_group_lawful (R : Rug) (D : ℤ) (hD : IsDiscriminant D) (residue : D % 8 = 1)
    (large : D < -7) :
    ∃ _ : AbelianUnknownOrderGroup {x : ClassElem // x.Reduced D},
      Computes (unknownOrderFns R D) (Subtype.val : {x : ClassElem // x.Reduced D} → ClassElem) ∧
      ∀ (ι : Type) (env : ι → {x : ClassElem // x.Reduced D}) (calls : GroupCalls ι),
        Returns (fun fuel => calls.run (unknownOrderFns R D) fuel fun i => (env i).1)
          (calls.eval env).1 :=
  let group := reducedGroup R hD residue large
  ⟨group, computes R hD residue large,
    fun _ env calls => (computes R hD residue large).run env calls⟩

theorem class_group_lawful_neg_23 :
    ∃ _ : AbelianUnknownOrderGroup {x : ClassElem // x.Reduced (-23)},
      Computes (unknownOrderFns Rug.gmp (-23))
        (Subtype.val : {x : ClassElem // x.Reduced (-23)} → ClassElem) ∧
      ∀ (ι : Type) (env : ι → {x : ClassElem // x.Reduced (-23)}) (calls : GroupCalls ι),
        Returns (fun fuel => calls.run (unknownOrderFns Rug.gmp (-23)) fuel fun i => (env i).1)
          (calls.eval env).1 :=
  class_group_lawful Rug.gmp (-23) isDiscriminant_neg_23 (by decide) (by decide)

end ClassGroup

/-! ## The RSA group -/

namespace Rsa2048

variable {N : ℤ} {e : Rsa2048Elem}

/-- The functions `Rsa2048` supplies. -/
def unknownOrderFns (M : RugModular) (N : ℤ) : UnknownOrderFns Rsa2048Elem where
  toGroupFns := fns M N
  exp_ _ := exp_ M N
  unknownOrderElem_ := unknownOrderElem_ N

/-- The class a canonical element stands for. -/
noncomputable def classOf (e : {e // Canonical N e}) : UnitsUpToSign N :=
  Classical.choose e.2.exists_stands

theorem stands_classOf (e : {e // Canonical N e}) : Stands N e.1 (classOf e) :=
  Classical.choose_spec e.2.exists_stands

theorem exists_classOf (large : 2 < N) (q : UnitsUpToSign N) :
    ∃ e : {e // Canonical N e}, classOf e = q := by
  obtain ⟨e, stands⟩ := exists_stands large q
  refine ⟨⟨e, stands.canonical⟩, ?_⟩
  exact (stands_classOf ⟨e, stands.canonical⟩).represents.unique stands.represents

/-- Every class has one canonical element. -/
theorem canonicals (odd : N % 2 = 1) (large : 2 < N) : Canonicals (classOf (N := N)) where
  injective a b same := by
    have right := stands_classOf b
    rw [← same] at right
    exact Subtype.ext ((stands_classOf a).unique odd right)
  one := exists_classOf large 1
  mul a b := exists_classOf large (classOf a * classOf b)
  inv a := by
    obtain ⟨b, inverse⟩ := exists_classOf large (classOf a)⁻¹
    exact ⟨b, by rw [inverse, inv_mul_cancel]⟩

theorem eq_of_stands (odd : N % 2 = 1) {a : {e // Canonical N e}} {q : UnitsUpToSign N}
    (stands : Stands N e q) (same : classOf a = q) : e = a.1 := by
  rw [← same] at stands
  exact stands.unique odd (stands_classOf a)

/-- The element of unknown order is canonical. -/
theorem exists_unknownOrderElem (odd : N % 2 = 1) (large : 2 < N) :
    ∃ g : {e // Canonical N e}, unknownOrderElem_ N = .ok g.1 := by
  have coprime : IsCoprime 2 N := ⟨-(N / 2), 1, by omega⟩
  obtain ⟨q, represents⟩ := exists_represents coprime
  obtain ⟨e, run, stands⟩ := stands_of_elem large two_pos.le represents
  exact ⟨⟨e, stands.canonical⟩, run⟩

/-- The inverse is canonical itself. -/
theorem inv_computes (M : RugModular) (odd : N % 2 = 1) (large : 2 < N)
    (g a : {e // Canonical N e}) :
    letI := AbelianUnknownOrderGroup.ofCommGroup (canonicals odd large).commGroup g
    (unknownOrderFns M N).inv_ a.1 = .ok (inv a).1 := by
  let := AbelianUnknownOrderGroup.ofCommGroup (canonicals odd large).commGroup g
  obtain ⟨i, inverted, hi⟩ := (stands_classOf a).inv M large
  have inverse : classOf (inv a) = (classOf a)⁻¹ :=
    eq_inv_of_mul_eq_one_left ((canonicals odd large).cls_inv a)
  rw [eq_of_stands odd hi inverse] at inverted
  exact inverted

theorem computes (M : RugModular) (odd : N % 2 = 1) (large : 2 < N) {g : {e // Canonical N e}}
    (generator : unknownOrderElem_ N = .ok g.1) :
    letI := AbelianUnknownOrderGroup.ofCommGroup (canonicals odd large).commGroup g
    Computes (unknownOrderFns M N) (Subtype.val : {e // Canonical N e} → Rsa2048Elem) := by
  let := AbelianUnknownOrderGroup.ofCommGroup (canonicals odd large).commGroup g
  refine ⟨Subtype.val_injective, ?_, ?_, ?_, ?_, generator⟩
  · obtain ⟨e, run, he⟩ := Stands.id large
    exact run.trans (congrArg _ (eq_of_stands odd he (canonicals odd large).cls_one))
  · intro a b
    obtain ⟨c, run, hc⟩ := (stands_classOf a).op large (stands_classOf b)
    rw [eq_of_stands odd hc ((canonicals odd large).cls_mul a b)] at run
    exact Returns.of_eq fun _ => run
  · intro a n
    obtain ⟨c, run, hc⟩ := (stands_classOf a).exp M large n
    rw [eq_of_stands odd hc ((canonicals odd large).cls_zpow a n)] at run
    exact Returns.of_eq fun _ => run
  · intro a b
    have inverted := inv_computes M odd large g b
    obtain ⟨c, run, hc⟩ := (stands_classOf a).op large (stands_classOf (inv b))
    rw [eq_of_stands odd hc ((canonicals odd large).cls_mul a (inv b))] at run
    exact ⟨(inv b).1, inverted, Returns.of_eq fun _ => run⟩

/-- The canonical elements of an odd modulus are a commutative group with an element of
unknown order: every function of the trait returns its values, `inv_` by itself as well, and
so does everything callers put together from them. -/
theorem rsa_lawful (M : RugModular) (N : ℤ) (odd : N % 2 = 1) (large : 2 < N) :
    ∃ _ : AbelianUnknownOrderGroup {e // Canonical N e},
      Computes (unknownOrderFns M N) (Subtype.val : {e // Canonical N e} → Rsa2048Elem) ∧
      (∀ a : {e // Canonical N e}, (unknownOrderFns M N).inv_ a.1 = .ok (inv a).1) ∧
      ∀ (ι : Type) (env : ι → {e // Canonical N e}) (calls : GroupCalls ι),
        Returns (fun fuel => calls.run (unknownOrderFns M N) fuel fun i => (env i).1)
          (calls.eval env).1 := by
  obtain ⟨g, generator⟩ := exists_unknownOrderElem odd large
  let group := AbelianUnknownOrderGroup.ofCommGroup (canonicals odd large).commGroup g
  exact ⟨group, computes M odd large generator, inv_computes M odd large g,
    fun _ env calls => (computes M odd large generator).run env calls⟩

theorem rsa_lawful_2048 :
    ∃ _ : AbelianUnknownOrderGroup {e // Canonical RSA2048_MODULUS e},
      Computes (unknownOrderFns RugModular.gmp RSA2048_MODULUS)
        (Subtype.val : {e // Canonical RSA2048_MODULUS e} → Rsa2048Elem) ∧
      (∀ a : {e // Canonical RSA2048_MODULUS e},
        (unknownOrderFns RugModular.gmp RSA2048_MODULUS).inv_ a.1 = .ok (inv a).1) ∧
      ∀ (ι : Type) (env : ι → {e // Canonical RSA2048_MODULUS e}) (calls : GroupCalls ι),
        Returns (fun fuel =>
            calls.run (unknownOrderFns RugModular.gmp RSA2048_MODULUS) fuel fun i => (env i).1)
          (calls.eval env).1 :=
  rsa_lawful RugModular.gmp RSA2048_MODULUS (by decide) (by decide)

end Rsa2048

end GroupAccumulator
