import Mathlib.Tactic.Ring

/-!
# The group traits

`GroupTrait` and `UnknownOrderGroup` are the operations a group implementation
offers to the accumulator.  `AbelianGroup` adds the laws every result about the
accumulator is stated over: an abelian group whose `exp` is the integer power.
A lawful group is a Mathlib `CommGroup` with the implementation's own `exp` as
its power, so `exp a n` and `a ^ n` are the same term.
-/

namespace GroupAccumulator

/-- The trait `Group`, keyed by its element type. -/
class GroupTrait (E : Type) where
  id : E
  op : E → E → E
  exp : E → ℤ → E
  inv : E → E

/-- The trait `UnknownOrderGroup`. -/
class UnknownOrderGroup (E : Type) extends GroupTrait E where
  unknownOrderElem : E

export GroupTrait (op exp inv)
export UnknownOrderGroup (unknownOrderElem)

/-- An implementation that obeys the laws of an abelian group. -/
class AbelianGroup (E : Type) extends GroupTrait E where
  op_assoc : ∀ a b c : E, op (op a b) c = op a (op b c)
  op_comm : ∀ a b : E, op a b = op b a
  id_op : ∀ a : E, op id a = a
  inv_op : ∀ a : E, op (inv a) a = id
  exp_zero : ∀ a : E, exp a 0 = id
  exp_succ : ∀ (a : E) (n : ℕ), exp a (n + 1 : ℕ) = op (exp a n) a
  exp_neg : ∀ (a : E) (n : ℕ), exp a (Int.negSucc n) = inv (exp a (n + 1 : ℕ))

/-- A lawful group with an element of unknown order. -/
class AbelianUnknownOrderGroup (E : Type) extends UnknownOrderGroup E, AbelianGroup E

instance (priority := low) AbelianGroup.toCommGroup {E : Type} [AbelianGroup E] :
    CommGroup E where
  mul := op
  one := GroupTrait.id
  inv := inv
  zpow n a := exp a n
  mul_assoc := AbelianGroup.op_assoc
  one_mul := AbelianGroup.id_op
  mul_one a := (AbelianGroup.op_comm a GroupTrait.id).trans (AbelianGroup.id_op a)
  inv_mul_cancel := AbelianGroup.inv_op
  mul_comm := AbelianGroup.op_comm
  zpow_zero' := AbelianGroup.exp_zero
  zpow_succ' n a := AbelianGroup.exp_succ a n
  zpow_neg' n a := AbelianGroup.exp_neg a n

section

variable {E : Type} [AbelianGroup E]

theorem exp_eq_zpow (a : E) (n : ℤ) : exp a n = a ^ n := rfl

end

/-- A commutative group with a chosen element, its powers as `exp`. -/
@[reducible] def AbelianUnknownOrderGroup.ofCommGroup {A : Type} (group : CommGroup A) (g : A) :
    AbelianUnknownOrderGroup A where
  id := 1
  op a b := a * b
  exp a n := a ^ n
  inv a := a⁻¹
  unknownOrderElem := g
  op_assoc := mul_assoc
  op_comm := mul_comm
  id_op := one_mul
  inv_op := inv_mul_cancel
  exp_zero := zpow_zero
  exp_succ a n := by
    rw [zpow_natCast, zpow_natCast]
    exact pow_succ a n
  exp_neg a n := by
    rw [zpow_negSucc, zpow_natCast]

/-! ## The infinite cyclic group -/

/-- The integers under addition, generated by one. -/
structure Cyclic where
  log : ℤ
  deriving DecidableEq

instance : AbelianUnknownOrderGroup Cyclic where
  id := ⟨0⟩
  op a b := ⟨a.log + b.log⟩
  exp a n := ⟨n * a.log⟩
  inv a := ⟨-a.log⟩
  unknownOrderElem := ⟨1⟩
  op_assoc a b c := congrArg Cyclic.mk (add_assoc a.log b.log c.log)
  op_comm a b := congrArg Cyclic.mk (add_comm a.log b.log)
  id_op a := congrArg Cyclic.mk (zero_add a.log)
  inv_op a := congrArg Cyclic.mk (neg_add_cancel a.log)
  exp_zero a := congrArg Cyclic.mk (zero_mul a.log)
  exp_succ a n := congrArg Cyclic.mk (by
    change ((n + 1 : ℕ) : ℤ) * a.log = n * a.log + a.log
    push_cast
    ring)
  exp_neg a n := congrArg Cyclic.mk (by
    change Int.negSucc n * a.log = -(((n + 1 : ℕ) : ℤ) * a.log)
    rw [Int.negSucc_eq]
    push_cast
    ring)

/-- The generator has infinite order. -/
theorem Cyclic.infinite (n : ℤ) (torsion : exp (unknownOrderElem : Cyclic) n = GroupTrait.id) :
    n = 0 := by
  have log : n * 1 = 0 := congrArg Cyclic.log torsion
  omega

end GroupAccumulator
