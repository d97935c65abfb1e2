import GroupAccumulator.Theory.Fueled
import Mathlib.Data.Nat.Find
import Mathlib.Logic.Function.Iterate

/-!
# Searching for the first candidate that passes

`firstHit` tests a candidate, and where the test fails the one after it, for as long as
there is fuel.  It returns the result for the first that passes (`returns_firstHit_iff`), ends in
the error of a test that ended so before any passed (`faults_firstHit_iff`), and otherwise
every candidate fails and no amount of fuel is enough (`firstHit_never_iff`); one of the three
is the case (`exists_first_not_failing`).  Where the candidates are the values of a 64-bit counter
that starts at zero, the first one is the least (`first_counter_iff`).
-/

namespace Theory

variable {φ κ α : Type} (out : φ) (next : κ → κ) (test : κ → Except φ Bool) (result : κ → α)

/-- The result for the first of `c`, `next c`, `next (next c)` and so on that passes the test. -/
def firstHit : ℕ → κ → Except φ α
  | 0, _ => .error out
  | fuel + 1, c => do
    if ← test c then
      return result c
    else
      firstHit fuel (next c)

/-- The first `k` candidates fail. -/
def FailsFor (k : ℕ) (c : κ) : Prop := ∀ j < k, test (next^[j] c) = .ok false

variable {out next test result} {c : κ} {k : ℕ}

theorem FailsFor.zero : FailsFor next test 0 c := fun _ less => (Nat.not_lt_zero _ less).elim

theorem failsFor_succ_iff :
    FailsFor next test (k + 1) c ↔ test c = .ok false ∧ FailsFor next test k (next c) := by
  constructor
  · intro fails
    exact ⟨fails 0 k.succ_pos, fun j less => fails (j + 1) (Nat.succ_lt_succ less)⟩
  · intro h j less
    obtain ⟨first, rest⟩ := h
    cases j with
    | zero => exact first
    | succ j => exact rest j (Nat.lt_of_succ_lt_succ less)

theorem firstHit_of_passes (passes : test c = .ok true) (fuel : ℕ) :
    firstHit out next test result (fuel + 1) c = .ok (result c) := by
  rw [firstHit, passes]
  rfl

theorem firstHit_of_fails (fails : test c = .ok false) (fuel : ℕ) :
    firstHit out next test result (fuel + 1) c = firstHit out next test result fuel (next c) := by
  rw [firstHit, fails]
  rfl

theorem firstHit_of_error {p : φ} (ends : test c = .error p) (fuel : ℕ) :
    firstHit out next test result (fuel + 1) c = .error p := by
  rw [firstHit, ends]
  rfl

/-- Candidates that fail use up one unit of fuel each. -/
theorem firstHit_add (fails : FailsFor next test k c) (fuel : ℕ) :
    firstHit out next test result (fuel + k) c =
      firstHit out next test result fuel (next^[k] c) := by
  induction k generalizing c with
  | zero => rfl
  | succ k ih =>
    obtain ⟨first, rest⟩ := failsFor_succ_iff.mp fails
    rw [← Nat.add_assoc, firstHit_of_fails first, ih rest]
    rfl

/-- With too little fuel the search is cut off. -/
theorem firstHit_of_failsFor (fails : FailsFor next test k c) :
    firstHit out next test result k c = .error out := by
  have cut : firstHit out next test result (0 + k) c = _ := firstHit_add fails 0
  rw [Nat.zero_add] at cut
  exact cut

/-! ## The three ends -/

theorem returns_of_passes (fails : FailsFor next test k c) (passes : test (next^[k] c) = .ok true) :
    Returns (fun fuel => firstHit out next test result fuel c) (result (next^[k] c)) := by
  refine ⟨k + 1, fun m le => ?_⟩
  obtain ⟨fuel, rfl⟩ : ∃ fuel, m = fuel + 1 + k := ⟨m - 1 - k, by omega⟩
  change firstHit out next test result (fuel + 1 + k) c = .ok (result (next^[k] c))
  rw [firstHit_add fails, firstHit_of_passes passes]

theorem faults_of_error {p : φ} (fails : FailsFor next test k c)
    (ends : test (next^[k] c) = .error p) :
    Faults (fun fuel => firstHit out next test result fuel c) p := by
  refine ⟨k + 1, fun m le => ?_⟩
  obtain ⟨fuel, rfl⟩ : ∃ fuel, m = fuel + 1 + k := ⟨m - 1 - k, by omega⟩
  change firstHit out next test result (fuel + 1 + k) c = .error p
  rw [firstHit_add fails, firstHit_of_error ends]

/-- Either all candidates fail, or there is a first that does not. -/
theorem exists_first_not_failing (next : κ → κ) (test : κ → Except φ Bool) (c : κ) :
    (∀ j, test (next^[j] c) = .ok false) ∨
      ∃ k, FailsFor next test k c ∧ (test (next^[k] c) = .ok true ∨
        ∃ p, test (next^[k] c) = .error p) := by
  classical
  by_cases all : ∀ j, test (next^[j] c) = .ok false
  · exact Or.inl all
  · push Not at all
    refine Or.inr ⟨Nat.find all, fun j less => not_not.mp (Nat.find_min all less), ?_⟩
    have other := Nat.find_spec all
    cases result : test (next^[Nat.find all] c) with
    | error p => exact Or.inr ⟨p, rfl⟩
    | ok b =>
      cases b with
      | true => exact Or.inl rfl
      | false => exact (other result).elim

theorem firstHit_of_all_fail (all : ∀ j, test (next^[j] c) = .ok false) (fuel : ℕ) :
    firstHit out next test result fuel c = .error out :=
  firstHit_of_failsFor fun j _ => all j

/-- What is returned is the result for the first candidate that passes. -/
theorem returns_firstHit_iff {a : α} :
    Returns (fun fuel => firstHit out next test result fuel c) a ↔
      ∃ k, FailsFor next test k c ∧ test (next^[k] c) = .ok true ∧ a = result (next^[k] c) := by
  constructor
  · intro returns
    rcases exists_first_not_failing next test c with all | ⟨k, fails, passes | ⟨p, ends⟩⟩
    · exact (not_returns_of_eq_error (firstHit_of_all_fail all) ⟨a, returns⟩).elim
    · exact ⟨k, fails, passes, returns.unique (returns_of_passes fails passes)⟩
    · exact (returns.not_faults (faults_of_error fails ends)).elim
  · intro h
    obtain ⟨k, fails, passes, rfl⟩ := h
    exact returns_of_passes fails passes

/-- An error is that of the first test that does not fail. -/
theorem faults_firstHit_iff {p : φ} (ne : p ≠ out) :
    Faults (fun fuel => firstHit out next test result fuel c) p ↔
      ∃ k, FailsFor next test k c ∧ test (next^[k] c) = .error p := by
  constructor
  · intro faults
    rcases exists_first_not_failing next test c with all | ⟨k, fails, passes | ⟨q, ends⟩⟩
    · have stuck : Faults (fun fuel => firstHit out next test result fuel c) out :=
        Faults.of_eq (firstHit_of_all_fail all)
      exact (ne (Except.error.inj (fuel_unique faults stuck))).elim
    · exact ((returns_of_passes fails passes).not_faults faults).elim
    · have ended : Faults (fun fuel => firstHit out next test result fuel c) q :=
        faults_of_error fails ends
      cases fuel_unique faults ended
      exact ⟨k, fails, ends⟩
  · intro h
    obtain ⟨k, fails, ends⟩ := h
    exact faults_of_error fails ends

/-- Every amount of fuel is used up exactly when every candidate fails. -/
theorem firstHit_never_iff (regular : ∀ c, test c ≠ .error out) :
    (∀ fuel, firstHit out next test result fuel c = .error out) ↔
      ∀ j, test (next^[j] c) = .ok false := by
  refine ⟨fun stuck => ?_, firstHit_of_all_fail⟩
  rcases exists_first_not_failing next test c with all | ⟨k, fails, passes | ⟨p, ends⟩⟩
  · exact all
  · exact (not_returns_of_eq_error stuck ⟨_, returns_of_passes fails passes⟩).elim
  · have ended : Faults (fun fuel => firstHit out next test result fuel c) p :=
      faults_of_error fails ends
    cases fuel_unique (Faults.of_eq stuck) ended
    exact (regular _ ends).elim

/-! ## Counters -/

theorem iterate_counter (k : ℕ) : (· + 1)^[k] (0 : UInt64) = UInt64.ofNat k := by
  induction k with
  | zero => rfl
  | succ k ih => rw [Function.iterate_succ_apply', ih, UInt64.ofNat_add]; rfl

/-- The counter wraps, but the first value that does not fail comes before that. -/
theorem first_counter_iff {test : UInt64 → Except φ Bool} {P : UInt64 → Prop}
    (apart : ∀ c, P c → test c ≠ .ok false) :
    (∃ k, FailsFor (· + 1) test k 0 ∧ P ((· + 1)^[k] 0)) ↔
      ∃ c, (∀ c' < c, test c' = .ok false) ∧ P c := by
  constructor
  · intro h
    obtain ⟨k, fails, holds⟩ := h
    have before (j : ℕ) (less : j < k) : test (UInt64.ofNat j) = .ok false := by
      rw [← iterate_counter]
      exact fails j less
    rw [iterate_counter] at holds
    have range : k < UInt64.size := by
      by_contra wraps
      have less : k % UInt64.size < k :=
        (Nat.mod_lt k (by decide)).trans_le (Nat.le_of_not_lt wraps)
      have same : UInt64.ofNat (k % UInt64.size) = UInt64.ofNat k := by
        apply UInt64.toNat_inj.mp
        rw [UInt64.toNat_ofNat', UInt64.toNat_ofNat']
        exact Nat.mod_mod k _
      exact apart _ holds (same ▸ before _ less)
    refine ⟨UInt64.ofNat k, fun c' less => ?_, holds⟩
    rw [UInt64.lt_iff_toNat_lt, UInt64.toNat_ofNat', Nat.mod_eq_of_lt range] at less
    have earlier := before c'.toNat less
    rwa [UInt64.ofNat_toNat] at earlier
  · intro h
    obtain ⟨c, fails, holds⟩ := h
    refine ⟨c.toNat, fun j less => ?_, ?_⟩
    · rw [iterate_counter]
      apply fails
      rw [UInt64.lt_iff_toNat_lt, UInt64.toNat_ofNat', Nat.mod_eq_of_lt (less.trans c.toNat_lt)]
      exact less
    · rw [iterate_counter, UInt64.ofNat_toNat]
      exact holds

theorem all_counters_iff {P : UInt64 → Prop} :
    (∀ j, P ((· + 1)^[j] (0 : UInt64))) ↔ ∀ c, P c := by
  constructor
  · intro all c
    have here := all c.toNat
    rwa [iterate_counter, UInt64.ofNat_toNat] at here
  · intro all j
    exact all _

end Theory
