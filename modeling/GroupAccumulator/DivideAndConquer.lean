import GroupAccumulator.Theory.Bracketing
import GroupAccumulator.Util

/-!
# The order of the fold

`divideAndConquer` takes the place of a fold from the left.  The calls it makes have
another order and other arguments, so the two agree where the operation is associative
and returns on the values of neighbouring segments, the seed being the first
(`divideAndConquer_eq_foldlM`).  Where it may fail, but never in one grouping alone, they
return together (`divideAndConquer_eq_ok_iff_foldlM`).

`Calls` lists the calls of `f` made on the way, as the question marks of the source let
them happen.  An error of the fold is the error of one of these calls, and a call that
ends in an error ends the fold with it.
-/

namespace GroupAccumulator

open Theory

variable {ε T : Type} {f : T → T → Outcome ε T} {xs : List T}

/-- A fold over entries ends with the one call that has the seed. -/
theorem divideAndConquer_of_ne (acc : T) (ne : xs ≠ []) :
    divideAndConquer f acc xs = divideAndConquer_ f xs ne >>= f acc := by
  unfold divideAndConquer
  rw [dif_neg ne]

/-! ## The fold from the left -/

/-- The halving fold returns, with the value of a bracketing. -/
theorem divideAndConquer_bracketing (total : TotalOn f xs) (ne : xs ≠ []) :
    ∃ c, divideAndConquer_ f xs ne = .ok c ∧ Bracketing f xs c := by
  apply divideAndConquer_halves (P := fun l o => ∃ c, o = .ok c ∧ Bracketing f l c) ne
  · intro x _
    exact ⟨x, rfl, Bracketing.single x⟩
  · intro l r p q within left right
    obtain ⟨a, rfl, left⟩ := left
    obtain ⟨b, rfl, right⟩ := right
    obtain ⟨c, call⟩ := total l r a b within left right
    exact ⟨c, call, left.join right call⟩

/-! ## Partial operations -/

/-- Where one grouping of three values returns, so does the other, with the same value. -/
def Regroups (f : T → T → Outcome ε T) : Prop :=
  ∀ a b c d, (f a b >>= fun ab => f ab c) = .ok d ↔ (f b c >>= fun bc => f a bc) = .ok d

/-- A slice is folded into a value from the left exactly where its own fold is. -/
theorem foldlM_eq_ok_iff_slice (regroups : Regroups f) (ne : xs ≠ []) (a c : T) :
    xs.foldlM f a = .ok c ↔ (divideAndConquer_ f xs ne >>= f a) = .ok c := by
  refine divideAndConquer_slice_induct
    (P := fun zs o => ∀ a c, zs.foldlM f a = .ok c ↔ (o >>= f a) = .ok c) ?_ ?_ ne a c
  · intro x a c
    simp only [List.foldlM_cons, List.foldlM_nil, bind_pure]
    rfl
  · intro zs _ _ _ left right a c
    have halves : zs.foldlM f a =
        (zs.take (zs.length / 2)).foldlM f a >>= (zs.drop (zs.length / 2)).foldlM f := by
      rw [← List.foldlM_append, List.take_append_drop]
    rw [halves]
    simp only [Outcome.bind_eq_ok_iff, left, right]
    constructor
    · rintro ⟨v, ⟨l, folded, first⟩, r, folded', second⟩
      obtain ⟨b, joined, whole⟩ := Outcome.bind_eq_ok
        ((regroups a l r c).mp (Outcome.bind_eq_ok_iff.mpr ⟨v, first, second⟩))
      exact ⟨b, ⟨l, folded, r, folded', joined⟩, whole⟩
    · rintro ⟨b, ⟨l, folded, r, folded', joined⟩, whole⟩
      obtain ⟨v, first, second⟩ := Outcome.bind_eq_ok
        ((regroups a l r c).mpr (Outcome.bind_eq_ok_iff.mpr ⟨b, joined, whole⟩))
      exact ⟨v, ⟨l, folded, first⟩, r, folded', second⟩

/-- An operation that may fail, but not in one grouping alone, folds by halves what it folds
from the left. -/
theorem divideAndConquer_eq_ok_iff_foldlM (regroups : Regroups f) {acc c : T} :
    divideAndConquer f acc xs = .ok c ↔ xs.foldlM f acc = .ok c := by
  cases xs with
  | nil => exact Iff.rfl
  | cons x xs =>
    have ne := List.cons_ne_nil x xs
    rw [divideAndConquer_of_ne acc ne, foldlM_eq_ok_iff_slice regroups ne]

/-! ## The calls made on the way -/

/-- The calls of `f` on a slice.  The right half is entered only after the left returned, and
the slice's own call made only after both. -/
inductive Calls_ (f : T → T → Outcome ε T) : List T → T → T → Prop
  | left {xs : List T} {a b : T} : 2 ≤ xs.length →
    Calls_ f (xs.take (xs.length / 2)) a b → Calls_ f xs a b
  | right {xs : List T} {l a b : T} (left : xs.take (xs.length / 2) ≠ []) : 2 ≤ xs.length →
    divideAndConquer_ f (xs.take (xs.length / 2)) left = .ok l →
    Calls_ f (xs.drop (xs.length / 2)) a b → Calls_ f xs a b
  | join {xs : List T} {a b : T} (left : xs.take (xs.length / 2) ≠ [])
    (right : xs.drop (xs.length / 2) ≠ []) : 2 ≤ xs.length →
    divideAndConquer_ f (xs.take (xs.length / 2)) left = .ok a →
    divideAndConquer_ f (xs.drop (xs.length / 2)) right = .ok b → Calls_ f xs a b

/-- The calls of `f` in the whole fold, the last one with the seed. -/
inductive Calls (f : T → T → Outcome ε T) (acc : T) : List T → T → T → Prop
  | slice {xs : List T} {a b : T} : Calls_ f xs a b → Calls f acc xs a b
  | seed {xs : List T} {b : T} (ne : xs ≠ []) :
    divideAndConquer_ f xs ne = .ok b → Calls f acc xs acc b

/-- A slice with a call has at least two entries. -/
theorem Calls_.two_le {a b : T} (call : Calls_ f xs a b) : 2 ≤ xs.length := by
  cases call with
  | left many => exact many
  | right _ many => exact many
  | join _ _ many => exact many

theorem Calls_.ne_nil {a b : T} (call : Calls_ f xs a b) : xs ≠ [] := by
  have many := call.two_le
  exact List.ne_nil_of_length_pos (by omega)

/-- The recursion returns an error exactly when a call it makes does. -/
theorem divideAndConquer_eq_err_iff_slice {e : ε} (ne : xs ≠ []) :
    divideAndConquer_ f xs ne = .err e ↔ ∃ a b, Calls_ f xs a b ∧ f a b = .err e := by
  refine divideAndConquer_slice_induct
    (P := fun zs o => o = .err e ↔ ∃ a b, Calls_ f zs a b ∧ f a b = .err e) ?_ ?_ ne
  · intro x
    constructor
    · intro failed
      cases failed
    · rintro ⟨a, b, call, -⟩
      exact (Nat.not_succ_le_self 1 call.two_le).elim
  · intro zs many leftSome rightSome left right
    rw [Outcome.bind_eq_err_iff, left]
    simp only [Outcome.bind_eq_err_iff, right]
    constructor
    · rintro (⟨a, b, call, failed⟩ | ⟨l, first, ⟨a, b, call, failed⟩ | ⟨r, second, failed⟩⟩)
      · exact ⟨a, b, Calls_.left many call, failed⟩
      · exact ⟨a, b, Calls_.right leftSome many first call, failed⟩
      · exact ⟨l, r, Calls_.join leftSome rightSome many first second, failed⟩
    · rintro ⟨a, b, call, failed⟩
      cases call with
      | left _ call => exact Or.inl ⟨a, b, call, failed⟩
      | right _ _ first call => exact Or.inr ⟨_, first, Or.inl ⟨a, b, call, failed⟩⟩
      | join _ _ _ first second => exact Or.inr ⟨a, first, Or.inr ⟨b, second, failed⟩⟩

theorem divideAndConquer_eq_err_iff {acc : T} {e : ε} :
    divideAndConquer f acc xs = .err e ↔ ∃ a b, Calls f acc xs a b ∧ f a b = .err e := by
  constructor
  · intro failed
    cases xs with
    | nil => cases failed
    | cons x xs =>
      rw [divideAndConquer_of_ne acc (List.cons_ne_nil x xs)] at failed
      rcases Outcome.bind_eq_err_iff.mp failed with inside | ⟨b, folded, failed⟩
      · obtain ⟨a, b, call, failed⟩ := (divideAndConquer_eq_err_iff_slice _).mp inside
        exact ⟨a, b, Calls.slice call, failed⟩
      · exact ⟨acc, b, Calls.seed _ folded, failed⟩
  · rintro ⟨a, b, call, failed⟩
    cases call with
    | slice call =>
      have ne := call.ne_nil
      rw [divideAndConquer_of_ne acc ne]
      exact Outcome.bind_eq_err_iff.mpr
        (Or.inl ((divideAndConquer_eq_err_iff_slice ne).mpr ⟨a, b, call, failed⟩))
    | seed ne folded =>
      rw [divideAndConquer_of_ne acc ne]
      exact Outcome.bind_eq_err_iff.mpr (Or.inr ⟨b, folded, failed⟩)

/-- Where the operation returns on the values of neighbouring segments and is associative
there, the fold is the one from the left, the seed first; and whatever the operation, the
errors of the fold are those of the calls it makes. -/
theorem divideAndConquer_eq_foldlM (f : T → T → Outcome ε T) (acc : T) (xs : List T) :
    (TotalOn f (acc :: xs) → AssociativeOn f (acc :: xs) →
      ∃ c, divideAndConquer f acc xs = .ok c ∧ xs.foldlM f acc = .ok c) ∧
      ∀ e, divideAndConquer f acc xs = .err e ↔ ∃ a b, Calls f acc xs a b ∧ f a b = .err e := by
  refine ⟨fun total assoc => ?_, fun e => divideAndConquer_eq_err_iff⟩
  cases xs with
  | nil => exact ⟨acc, rfl, rfl⟩
  | cons x xs =>
    have ne := List.cons_ne_nil x xs
    obtain ⟨b, folded, value⟩ := divideAndConquer_bracketing total.tail ne
    obtain ⟨c, call⟩ := total [acc] (x :: xs) acc b List.infix_rfl (Bracketing.single acc) value
    refine ⟨c, ?_, ?_⟩
    · rw [divideAndConquer_of_ne acc ne, folded]
      exact call
    · have whole : Bracketing f (acc :: x :: xs) c := (Bracketing.single acc).join value call
      exact whole.foldlM_eq total assoc List.infix_rfl

/-- The product of five numbers, by halves. -/
theorem divideAndConquer_eq_foldlM_product :
    divideAndConquer (fun a b => (.ok (a * b) : Outcome Empty ℤ)) 1 [3, 5, 7, 9, 11] =
      .ok 10395 := by
  have agrees := divideAndConquer_eq_foldlM (fun a b => (.ok (a * b) : Outcome Empty ℤ)) 1
    [3, 5, 7, 9, 11]
  obtain ⟨c, folded, fromLeft⟩ := agrees.1 (totalOn_pure _ _) (associativeOn_pure mul_assoc _)
  have value : ([3, 5, 7, 9, 11] : List ℤ).foldlM
      (fun a b => (.ok (a * b) : Outcome Empty ℤ)) 1 = .ok 10395 := rfl
  rw [folded, ← fromLeft, value]

end GroupAccumulator
