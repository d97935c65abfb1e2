import GroupAccumulator.Theory.CoprimeProducts
import Mathlib.Algebra.Order.BigOperators.GroupWithZero.List
import Mathlib.Data.Set.Function

/-!
# Hashing

`std::hash::Hash` feeds a value to a hasher as bytes; a tuple feeds its
components in order.  `hash_to_prime` and `blake2b` depend on those bytes alone.
`Hashing` carries both as functions of the bytes: `hash_to_prime` returns only
candidates whose lowest bit it has set, hence never zero.
-/

namespace GroupAccumulator

open Theory

/-- The bytes a value feeds to a hasher. -/
class Hash (α : Type) where
  feed : α → List UInt8

/-- No value's bytes start with those of another. -/
def Hash.PrefixFree (α : Type) [Hash α] : Prop :=
  ∀ (t u : α) (l r : List UInt8), Hash.feed t ++ l = Hash.feed u ++ r → t = u

instance {α β : Type} [Hash α] [Hash β] : Hash (α × β) where
  feed x := Hash.feed x.1 ++ Hash.feed x.2

instance : Hash Bool where
  feed b := [if b then 1 else 0]

/-- The two hash functions of the crate, over the bytes fed to them. -/
structure Hashing where
  primeOf : List UInt8 → ℤ
  blake2bOf : List UInt8 → ℤ
  primeOf_ne_zero : ∀ bytes, primeOf bytes ≠ 0

namespace Hashing

variable (H : Hashing) {α : Type} [Hash α]

def hashToPrime (t : α) : ℤ := H.primeOf (Hash.feed t)

def blake2b (t : α) : ℤ := H.blake2bOf (Hash.feed t)

/-- Division by a prime hash never panics. -/
theorem hashToPrime_ne_zero (t : α) : H.hashToPrime t ≠ 0 := H.primeOf_ne_zero _

/-- Hashes its arguments to primes and takes their product. -/
def primeHashProduct (ts : List α) : ℤ := (ts.map H.hashToPrime).prod

@[simp] theorem primeHashProduct_nil : H.primeHashProduct ([] : List α) = 1 := rfl

@[simp] theorem primeHashProduct_cons (t : α) (ts : List α) :
    H.primeHashProduct (t :: ts) = H.hashToPrime t * H.primeHashProduct ts := by
  simp [primeHashProduct]

theorem primeHashProduct_singleton (t : α) : H.primeHashProduct [t] = H.hashToPrime t := by
  rw [primeHashProduct_cons, primeHashProduct_nil, mul_one]

@[simp] theorem primeHashProduct_append (ts us : List α) :
    H.primeHashProduct (ts ++ us) = H.primeHashProduct ts * H.primeHashProduct us := by
  simp [primeHashProduct]

/-- The order of the elements does not matter. -/
theorem primeHashProduct_perm {ts us : List α} (perm : ts.Perm us) :
    H.primeHashProduct ts = H.primeHashProduct us :=
  (perm.map H.hashToPrime).prod_eq

theorem hashToPrime_dvd_product {t : α} {ts : List α} (member : t ∈ ts) :
    H.hashToPrime t ∣ H.primeHashProduct ts :=
  List.dvd_prod (List.mem_map_of_mem member)

theorem primeHashProduct_ne_zero (ts : List α) : H.primeHashProduct ts ≠ 0 := by
  apply List.prod_ne_zero
  intro zero
  obtain ⟨t, -, vanishes⟩ := List.mem_map.mp zero
  exact H.hashToPrime_ne_zero t vanishes

/-- One hash and those of all other entries. -/
theorem primeHashProduct_eraseIdx {ts : List α} {i : ℕ} (inside : i < ts.length) :
    H.hashToPrime ts[i] * H.primeHashProduct (ts.eraseIdx i) = H.primeHashProduct ts := by
  rw [← primeHashProduct_cons]
  exact H.primeHashProduct_perm (List.getElem_cons_eraseIdx_perm inside)

theorem primeHashProduct_pos {ts : List α} (positive : ∀ t ∈ ts, 0 < H.hashToPrime t) :
    0 < H.primeHashProduct ts := by
  apply List.prod_pos
  intro p member
  rcases List.mem_map.mp member with ⟨t, belongs, rfl⟩
  exact positive t belongs

theorem primeHashProduct_eq_one_iff {ts : List α} (prime : ∀ t ∈ ts, Prime (H.hashToPrime t)) :
    H.primeHashProduct ts = 1 ↔ ts = [] := by
  refine ⟨fun one => ?_, fun empty => by rw [empty, primeHashProduct_nil]⟩
  cases ts with
  | nil => rfl
  | cons t ts =>
    rw [primeHashProduct_cons] at one
    exact ((prime t List.mem_cons_self).not_isUnit (IsUnit.of_mul_eq_one _ one)).elim

/-- Products of hashes coprime in pairs are coprime. -/
theorem isCoprime_primeHashProduct {ts us : List α}
    (pairs : ∀ t ∈ ts, ∀ u ∈ us, IsCoprime (H.hashToPrime t) (H.hashToPrime u)) :
    IsCoprime (H.primeHashProduct ts) (H.primeHashProduct us) :=
  isCoprime_prod_map pairs

/-- On `S`, `hash_to_prime` returns primes and tells the elements apart. -/
structure Separates (S : Set α) : Prop where
  positive : ∀ t ∈ S, 0 < H.hashToPrime t
  prime : ∀ t ∈ S, Prime (H.hashToPrime t)
  injective : Set.InjOn H.hashToPrime S

variable {H} {S : Set α}

theorem Separates.mono {S' : Set α} (separates : H.Separates S) (sub : S' ⊆ S) :
    H.Separates S' :=
  ⟨fun t ht => separates.positive t (sub ht), fun t ht => separates.prime t (sub ht),
    separates.injective.mono sub⟩

/-- Two elements told apart have coprime hashes. -/
theorem Separates.coprime (separates : H.Separates S) {t u : α} (ht : t ∈ S) (hu : u ∈ S)
    (ne : t ≠ u) : IsCoprime (H.hashToPrime t) (H.hashToPrime u) :=
  isCoprime_of_primes (separates.positive t ht) (separates.prime t ht) (separates.positive u hu)
    (separates.prime u hu) fun same => ne (separates.injective ht hu same)

/-- Lists without a common element have coprime products. -/
theorem Separates.coprime_products {ts us : List α} (separates : H.Separates {t | t ∈ us ++ ts})
    (apart : ∀ t ∈ ts, t ∉ us) : IsCoprime (H.primeHashProduct ts) (H.primeHashProduct us) := by
  apply H.isCoprime_primeHashProduct
  intro t ht u hu
  refine separates.coprime (List.mem_append_right _ ht) (List.mem_append_left _ hu) ?_
  intro same
  exact apart t ht (same ▸ hu)

/-- Products have a common factor exactly when the lists have a common element. -/
theorem Separates.gcd_ne_one_iff {ts us : List α} (separates : H.Separates {t | t ∈ us ++ ts}) :
    Int.gcd (H.primeHashProduct ts) (H.primeHashProduct us) ≠ 1 ↔ ∃ t ∈ ts, t ∈ us := by
  rw [Ne, ← Int.isCoprime_iff_gcd_eq_one]
  constructor
  · intro shared
    by_contra apart
    push Not at apart
    exact shared (separates.coprime_products apart)
  · intro common coprime
    rcases common with ⟨t, ht, hu⟩
    have prime := separates.prime t (List.mem_append_right _ ht)
    exact prime.not_isUnit
      (coprime.isUnit_of_dvd' (H.hashToPrime_dvd_product ht) (H.hashToPrime_dvd_product hu))

/-- Products divide each other exactly as the lists are contained in each other. -/
theorem Separates.product_dvd_iff {ts us : List α} (separates : H.Separates {t | t ∈ us ++ ts}) :
    H.primeHashProduct ts ∣ H.primeHashProduct us ↔ ts.Subperm us := by
  have inner (t : α) (member : t ∈ ts) : t ∈ us ++ ts := List.mem_append_right us member
  have outer (u : α) (member : u ∈ us) : u ∈ us ++ ts := List.mem_append_left ts member
  apply prod_map_dvd_iff_subperm
  · intro t ht
    exact separates.prime t (inner t ht)
  · intro t ht u hu divides
    apply separates.injective (inner t ht) (outer u hu)
    exact eq_of_prime_dvd (separates.positive t (inner t ht)) (separates.prime t (inner t ht))
      (separates.positive u (outer u hu)) (separates.prime u (outer u hu)) divides

end Hashing

/-! ## Sample instances -/

namespace Sample

/-- Where nothing better is known, a value feeds no bytes. -/
scoped instance (priority := low) feedNothing {α : Type} : Hash α where
  feed _ := []

/-- A number feeds its lowest byte. -/
scoped instance feedByte : Hash ℤ where
  feed n := [UInt8.ofNat (n % 256).toNat]

end Sample

/-- The bytes `1`, `2` and `3` hash to three, seven and eleven, all else to five. -/
def Hashing.sample : Hashing where
  primeOf bytes :=
    if bytes = [1] then 3 else if bytes = [2] then 7 else if bytes = [3] then 11 else 5
  blake2bOf _ := 0
  primeOf_ne_zero bytes := by
    split
    · decide
    · split
      · decide
      · split <;> decide

theorem Hashing.sample_separates : Hashing.sample.Separates (Set.univ : Set Bool) := by
  refine ⟨fun t _ => ?_, fun t _ => ?_, fun t _ u _ same => ?_⟩
  · cases t <;> decide
  · cases t
    · exact Nat.prime_iff_prime_int.mp Nat.prime_five
    · exact Nat.prime_iff_prime_int.mp Nat.prime_three
  · revert same
    cases t <;> cases u <;> decide

open Sample in
/-- The first four indices are told apart. -/
theorem Hashing.sample_separates_indices {is : List ℤ} (among : is ⊆ [0, 1, 2, 3]) :
    Hashing.sample.Separates {i | i ∈ is} := by
  have positive : ∀ i ∈ [(0 : ℤ), 1, 2, 3], 0 < Hashing.sample.hashToPrime i := by decide
  have prime : ∀ i ∈ [(0 : ℤ), 1, 2, 3], Prime (Hashing.sample.hashToPrime i) := by
    rw [List.forall_mem_cons, List.forall_mem_cons, List.forall_mem_cons, List.forall_mem_singleton]
    exact ⟨Nat.prime_iff_prime_int.mp Nat.prime_five, Nat.prime_iff_prime_int.mp Nat.prime_three,
      Nat.prime_iff_prime_int.mp Nat.prime_seven, Nat.prime_iff_prime_int.mp Nat.prime_eleven⟩
  have apart : ∀ i ∈ [(0 : ℤ), 1, 2, 3], ∀ j ∈ [(0 : ℤ), 1, 2, 3],
      Hashing.sample.hashToPrime i = Hashing.sample.hashToPrime j → i = j := by decide
  exact ⟨fun i hi => positive i (among hi), fun i hi => prime i (among hi),
    fun i hi j hj same => apart i (among hi) j (among hj) same⟩

end GroupAccumulator
