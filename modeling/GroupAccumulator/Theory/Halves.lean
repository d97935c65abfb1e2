import Mathlib.Data.List.Basic
import Mathlib.Tactic.Basic

/-!
# Induction on halves

A recursion that cuts a list in the middle and stops at one element is well founded
on the lists that are not empty: from two elements on both halves are shorter, and
neither is empty.  The empty list is its own half, and the rule says nothing of it.
-/

namespace Theory

variable {α : Type*}

/-- Both halves of a longer list are shorter and not empty. -/
theorem length_halves {xs : List α} (ne : xs ≠ []) (many : ¬ xs.length = 1) :
    (0 < (xs.take (xs.length / 2)).length ∧ (xs.take (xs.length / 2)).length < xs.length) ∧
      0 < (xs.drop (xs.length / 2)).length ∧ (xs.drop (xs.length / 2)).length < xs.length := by
  have positive := List.length_pos_iff.mpr ne
  rw [List.length_take, List.length_drop]
  omega

/-- What holds of single elements, and of a list where it holds of both halves, holds of
every list that is not empty. -/
theorem halves_induct {P : List α → Prop} (single : ∀ x, P [x])
    (halves : ∀ xs, 2 ≤ xs.length → P (xs.take (xs.length / 2)) →
      P (xs.drop (xs.length / 2)) → P xs)
    {xs : List α} (ne : xs ≠ []) : P xs := by
  by_cases one : xs.length = 1
  · obtain ⟨x, rfl⟩ := List.length_eq_one_iff.mp one
    exact single x
  · obtain ⟨⟨left, leftShorter⟩, right, rightShorter⟩ := length_halves ne one
    have many : 2 ≤ xs.length := by
      have := List.length_pos_iff.mpr ne
      omega
    apply halves xs many
    · exact halves_induct single halves (List.ne_nil_of_length_pos left)
    · exact halves_induct single halves (List.ne_nil_of_length_pos right)
termination_by xs.length

end Theory
