import Mathlib.Algebra.BigOperators.Group.List.Basic
import Mathlib.Data.List.Prime
import Mathlib.RingTheory.Coprime.Lemmas
import Mathlib.RingTheory.Int.Basic

/-!
# Coprime products

What is coprime to every factor is coprime to the product, for products taken
over lists.  Distinct primes give the factors.  With one prime for each entry,
products divide each other exactly as the lists are contained in each other,
repetitions counted (`prod_map_dvd_iff_subperm`).
-/

namespace Theory

section

variable {R : Type*} [CommSemiring R] {ι κ : Type*} {f : ι → R} {g : κ → R}

theorem isCoprime_prod_map_right {x : R} {l : List ι} (all : ∀ i ∈ l, IsCoprime x (f i)) :
    IsCoprime x (l.map f).prod := by
  induction l with
  | nil => exact isCoprime_one_right
  | cons i l ih =>
    rw [List.map_cons, List.prod_cons]
    exact (all i List.mem_cons_self).mul_right
      (ih fun j member => all j (List.mem_cons_of_mem i member))

/-- Products of factors coprime across the two lists are coprime. -/
theorem isCoprime_prod_map {l : List ι} {r : List κ}
    (pairs : ∀ i ∈ l, ∀ j ∈ r, IsCoprime (f i) (g j)) :
    IsCoprime (l.map f).prod (r.map g).prod := by
  apply IsCoprime.symm
  apply isCoprime_prod_map_right
  intro i member
  exact (isCoprime_prod_map_right (pairs i member)).symm

end

/-- A prime divides no other one. -/
theorem eq_of_prime_dvd {p q : ℤ} (hp : 0 < p) (prime : Prime p) (hq : 0 < q) (prime' : Prime q)
    (divides : p ∣ q) : p = q :=
  Int.eq_of_associated_of_nonneg (prime.associated_of_dvd prime' divides) hp.le hq.le

/-- Different primes are coprime. -/
theorem isCoprime_of_primes {p q : ℤ} (hp : 0 < p) (prime : Prime p) (hq : 0 < q)
    (prime' : Prime q) (ne : p ≠ q) : IsCoprime p q := by
  refine prime.coprime_iff_not_dvd.mpr fun divides => ?_
  exact ne (eq_of_prime_dvd hp prime hq prime' divides)

/-! ## Products of primes -/

section

variable {M : Type*} [CommMonoidWithZero M] {ι : Type*} {f : ι → M}

theorem prod_map_dvd_of_subperm {l r : List ι} (contained : l.Subperm r) :
    (l.map f).prod ∣ (r.map f).prod := by
  obtain ⟨s, perm, sublist⟩ := contained
  rw [← (perm.map f).prod_eq]
  exact (sublist.map f).prod_dvd_prod

/-- A product of primes divides another one only where its factors are among the others,
each as often. -/
theorem subperm_of_prod_map_dvd [IsCancelMulZero M] {l r : List ι}
    (prime : ∀ i ∈ l, Prime (f i)) (apart : ∀ i ∈ l, ∀ j ∈ r, f i ∣ f j → i = j)
    (divides : (l.map f).prod ∣ (r.map f).prod) : l.Subperm r := by
  induction l generalizing r with
  | nil => exact List.nil_subperm
  | cons i l ih =>
    rw [List.forall_mem_cons] at prime apart
    rw [List.map_cons, List.prod_cons] at divides
    obtain ⟨e, member, here⟩ := prime.1.dvd_prod_iff.mp ((Dvd.intro _ rfl).trans divides)
    obtain ⟨j, belongs, rfl⟩ := List.mem_map.mp member
    obtain rfl := apart.1 j belongs here
    obtain ⟨r₁, r₂, rfl⟩ := List.append_of_mem belongs
    have middle : (r₁ ++ i :: r₂).Perm (i :: (r₁ ++ r₂)) := List.perm_middle
    rw [(middle.map f).prod_eq, List.map_cons, List.prod_cons,
      mul_dvd_mul_iff_left prime.1.ne_zero] at divides
    have rest : l.Subperm (r₁ ++ r₂) := by
      refine ih prime.2 (fun k hk j hj => apart.2 k hk j ?_) divides
      exact middle.mem_iff.mpr (List.mem_cons_of_mem i hj)
    exact ((List.subperm_cons i).mpr rest).trans middle.symm.subperm

theorem prod_map_dvd_iff_subperm [IsCancelMulZero M] {l r : List ι}
    (prime : ∀ i ∈ l, Prime (f i)) (apart : ∀ i ∈ l, ∀ j ∈ r, f i ∣ f j → i = j) :
    (l.map f).prod ∣ (r.map f).prod ↔ l.Subperm r :=
  ⟨subperm_of_prod_map_dvd prime apart, prod_map_dvd_of_subperm⟩

end

end Theory
