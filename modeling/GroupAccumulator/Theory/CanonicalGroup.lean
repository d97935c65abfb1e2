import Mathlib.Algebra.Group.Basic
import Mathlib.Algebra.Group.Hom.Defs

/-!
# Groups of canonical elements

Where every class of a commutative monoid that is met has one canonical element, and
products, the identity and inverses of such classes are again met, the canonical
elements are a commutative group (`Canonicals.commGroup`).  It is defined by what its
elements stand for: `Canonicals.cls_mul`, `cls_one` and `cls_inv`.
-/

namespace Theory

variable {A Q : Type*} [CommMonoid Q] {cls : A → Q}

/-- The classes of the elements of `A` are closed under the group operations, and each
belongs to one element. -/
structure Canonicals (cls : A → Q) : Prop where
  injective : Function.Injective cls
  one : ∃ e, cls e = 1
  mul : ∀ x y, ∃ z, cls z = cls x * cls y
  inv : ∀ x, ∃ y, cls y * cls x = 1

namespace Canonicals

/-- The element of a product of classes, of the identity and of an inverse class. -/
@[reducible] noncomputable def commGroup (canonical : Canonicals cls) : CommGroup A :=
  let mul : Mul A := ⟨fun x y => Classical.choose (canonical.mul x y)⟩
  let one : One A := ⟨Classical.choose canonical.one⟩
  let inv : Inv A := ⟨fun x => Classical.choose (canonical.inv x)⟩
  have cls_mul (x y : A) : cls (x * y) = cls x * cls y := Classical.choose_spec (canonical.mul x y)
  have cls_one : cls (1 : A) = 1 := Classical.choose_spec canonical.one
  have cls_inv (x : A) : cls x⁻¹ * cls x = 1 := Classical.choose_spec (canonical.inv x)
  { mul_assoc := fun x y z => canonical.injective (by simp only [cls_mul, mul_assoc])
    one_mul := fun x => canonical.injective (by rw [cls_mul, cls_one, one_mul])
    mul_one := fun x => canonical.injective (by rw [cls_mul, cls_one, mul_one])
    inv_mul_cancel := fun x => canonical.injective (by rw [cls_mul, cls_inv, cls_one])
    mul_comm := fun x y => canonical.injective (by rw [cls_mul, cls_mul, mul_comm]) }

variable (canonical : Canonicals cls)

theorem cls_mul (x y : A) :
    letI := canonical.commGroup
    cls (x * y) = cls x * cls y :=
  Classical.choose_spec (canonical.mul x y)

theorem cls_one :
    letI := canonical.commGroup
    cls 1 = 1 :=
  Classical.choose_spec canonical.one

theorem cls_inv (x : A) :
    letI := canonical.commGroup
    cls x⁻¹ * cls x = 1 :=
  Classical.choose_spec (canonical.inv x)

/-- Powers, where the classes form a group. -/
theorem cls_zpow {Q : Type*} [CommGroup Q] {cls : A → Q} (canonical : Canonicals cls) (x : A)
    (n : ℤ) :
    letI := canonical.commGroup
    cls (x ^ n) = cls x ^ n :=
  letI := canonical.commGroup
  map_zpow (⟨⟨cls, canonical.cls_one⟩, canonical.cls_mul⟩ : A →* Q) x n

end Canonicals

end Theory
