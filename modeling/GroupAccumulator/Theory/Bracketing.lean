import Mathlib.Data.List.Infix

/-!
# Bracketings of a list under a partial operation

An operation that may fail, in any monad, combines the entries of a list in many
orders.  `Bracketing f xs c` says that one of them ends with the value `c`.  Where the
operation returns on the values of neighbouring segments and is associative there, all
orders agree with the fold from the left (`Bracketing.foldlM_eq`); neither is asked of
values that no segment has.
-/

namespace Theory

universe u v

variable {m : Type u → Type v} [Monad m] {T : Type u}

/-- `c` is the value of the list under some bracketing. -/
inductive Bracketing (f : T → T → m T) : List T → T → Prop
  | single (x : T) : Bracketing f [x] x
  | join {l r : List T} {a b c : T} :
    Bracketing f l a → Bracketing f r b → f a b = pure c → Bracketing f (l ++ r) c

/-- `f` returns on the values of neighbouring segments. -/
def TotalOn (f : T → T → m T) (xs : List T) : Prop :=
  ∀ l r a b, l ++ r <:+: xs → Bracketing f l a → Bracketing f r b → ∃ c, f a b = pure c

/-- `f` is associative on the values of three neighbouring segments. -/
def AssociativeOn (f : T → T → m T) (xs : List T) : Prop :=
  ∀ l k r a b c ab bc, l ++ k ++ r <:+: xs → Bracketing f l a → Bracketing f k b →
    Bracketing f r c → f a b = pure ab → f b c = pure bc → f ab c = f a bc

variable {f : T → T → m T} {xs l r : List T} {a b c : T}

theorem Bracketing.ne_nil (value : Bracketing f l a) : l ≠ [] := by
  induction value with
  | single x => exact List.cons_ne_nil x []
  | join _ _ _ left _ => exact List.append_ne_nil_of_left_ne_nil left _

theorem TotalOn.tail {x : T} (total : TotalOn f (x :: xs)) : TotalOn f xs := by
  intro l r a b within
  exact total l r a b (within.trans (List.suffix_cons x xs).isInfix)

/-- An operation that never fails returns on all values. -/
theorem totalOn_pure (op : T → T → T) (xs : List T) :
    TotalOn (fun a b => pure (op a b) : T → T → m T) xs :=
  fun _ _ a b _ _ _ => ⟨op a b, rfl⟩

variable [LawfulMonad m]

theorem associativeOn_pure {op : T → T → T} (assoc : ∀ a b c, op (op a b) c = op a (op b c))
    (xs : List T) : AssociativeOn (fun a b => pure (op a b) : T → T → m T) xs := by
  intro l k r a b c ab bc _ _ _ _ first second
  -- `pure` need not be injective: the operands are replaced under it
  calc (pure (op ab c) : m T) = pure ab >>= fun z => pure (op z c) := by rw [pure_bind]
    _ = pure (op (op a b) c) := by rw [← first, pure_bind]
    _ = pure (op a (op b c)) := by rw [assoc]
    _ = pure bc >>= fun z => pure (op a z) := by rw [← second, pure_bind]
    _ = pure (op a bc) := by rw [pure_bind]

/-- Folding a segment into the value on its left is one call with the segment's own value. -/
theorem Bracketing.foldlM_segment (total : TotalOn f xs) (assoc : AssociativeOn f xs)
    (left : Bracketing f l a) (right : Bracketing f r b) (within : l ++ r <:+: xs) :
    r.foldlM f a = f a b := by
  induction right generalizing l a with
  | single x => simp only [List.foldlM_cons, List.foldlM_nil, bind_pure]
  | @join r₁ r₂ b₁ b₂ b first second joined ih₁ ih₂ =>
    rw [← List.append_assoc] at within
    have within₁ : l ++ r₁ <:+: xs := (List.prefix_append _ r₂).isInfix.trans within
    obtain ⟨a₁, call⟩ := total l r₁ a b₁ within₁ left first
    calc (r₁ ++ r₂).foldlM f a = r₁.foldlM f a >>= r₂.foldlM f := List.foldlM_append
      _ = r₂.foldlM f a₁ := by rw [ih₁ left within₁, call, pure_bind]
      _ = f a₁ b₂ := ih₂ (left.join first call) within
      _ = f a b := assoc l r₁ r₂ a b₁ b₂ a₁ b within left first second call joined

/-- Every bracketing has the value of the fold from the left. -/
theorem Bracketing.foldlM_eq {x : T} (total : TotalOn f xs) (assoc : AssociativeOn f xs)
    (value : Bracketing f (x :: r) c) (within : x :: r <:+: xs) : r.foldlM f x = pure c := by
  generalize whole : x :: r = zs at value within
  induction value generalizing r with
  | single y =>
    cases whole
    exact List.foldlM_nil
  | @join l k a b c left right joined ih =>
    obtain ⟨l', rfl⟩ : ∃ l', l = x :: l' := by
      cases l with
      | nil => exact (left.ne_nil rfl).elim
      | cons y l' =>
        cases whole
        exact ⟨l', rfl⟩
    cases whole
    have within' : x :: l' <:+: xs := (List.prefix_append (x :: l') k).isInfix.trans within
    calc (l' ++ k).foldlM f x = l'.foldlM f x >>= k.foldlM f := List.foldlM_append
      _ = k.foldlM f a := by rw [ih rfl within', pure_bind]
      _ = f a b := left.foldlM_segment total assoc right within
      _ = pure c := joined

end Theory
