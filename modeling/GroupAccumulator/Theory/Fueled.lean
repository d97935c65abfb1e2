import Mathlib.Order.Lattice
import Mathlib.Tactic.Basic

/-!
# Fueled computations that return

A loop with no bound of its own is run on explicit fuel.  `Returns f a` says
that from some amount of fuel on the computation `f` ends with the value `a`,
so a proof of it is a proof of termination.  `Faults f p` says the same of an error.
A computation that uses up every amount of fuel does not end (`eq_error_of_progress`).
-/

namespace Theory

variable {φ α β : Type}

/-! ## What holds from some fuel on -/

/-- One unit of fuel spent on the way in. -/
theorem exists_fuel_succ {f : ℕ → Except φ α} {r : Except φ α}
    (later : ∃ n, ∀ m, n ≤ m → f (m + 1) = r) : ∃ n, ∀ m, n ≤ m → f m = r := by
  obtain ⟨n, hn⟩ := later
  refine ⟨n + 1, fun m le => ?_⟩
  obtain ⟨k, rfl⟩ : ∃ k, m = k + 1 := ⟨m - 1, by omega⟩
  exact hn k (by omega)

/-- More fuel than two computations need serves both. -/
theorem exists_fuel_bind {f : ℕ → Except φ α} {g : ℕ → α → Except φ β} {a : α} {r : Except φ β}
    (first : ∃ n, ∀ m, n ≤ m → f m = .ok a) (second : ∃ n, ∀ m, n ≤ m → g m a = r) :
    ∃ n, ∀ m, n ≤ m → (f m >>= g m) = r := by
  obtain ⟨n, hn⟩ := first
  obtain ⟨k, hk⟩ := second
  refine ⟨max n k, fun m le => ?_⟩
  rw [hn m ((le_max_left n k).trans le)]
  exact hk m ((le_max_right n k).trans le)

/-- With enough fuel for both, two ends of one computation are the same. -/
theorem fuel_unique {f : ℕ → Except φ α} {r r' : Except φ α}
    (left : ∃ n, ∀ m, n ≤ m → f m = r) (right : ∃ n, ∀ m, n ≤ m → f m = r') : r = r' := by
  obtain ⟨n, hn⟩ := left
  obtain ⟨k, hk⟩ := right
  exact (hn (max n k) (le_max_left n k)).symm.trans (hk (max n k) (le_max_right n k))

/-! ## Values -/

/-- From some amount of fuel on, `f` returns `a`. -/
def Returns (f : ℕ → Except φ α) (a : α) : Prop := ∃ n, ∀ m, n ≤ m → f m = .ok a

theorem Returns.of_eq {f : ℕ → Except φ α} {a : α} (eq : ∀ m, f m = .ok a) : Returns f a :=
  ⟨0, fun m _ => eq m⟩

theorem Returns.exists_eq {f : ℕ → Except φ α} {a : α} (returns : Returns f a) :
    ∃ n, f n = .ok a := by
  obtain ⟨n, hn⟩ := returns
  exact ⟨n, hn n le_rfl⟩

theorem Returns.succ {f : ℕ → Except φ α} {a : α} (later : Returns (fun n => f (n + 1)) a) :
    Returns f a :=
  exists_fuel_succ later

theorem Returns.bind {f : ℕ → Except φ α} {g : ℕ → α → Except φ β} {a : α} {b : β}
    (first : Returns f a) (second : Returns (fun n => g n a) b) :
    Returns (fun n => f n >>= g n) b :=
  exists_fuel_bind first second

/-- A fueled computation returns at most one value. -/
theorem Returns.unique {f : ℕ → Except φ α} {a b : α} (left : Returns f a)
    (right : Returns f b) : a = b :=
  Except.ok.inj (fuel_unique left right)

/-! ## Errors -/

/-- From some amount of fuel on, `f` ends in the error `p`. -/
def Faults (f : ℕ → Except φ α) (p : φ) : Prop := ∃ n, ∀ m, n ≤ m → f m = .error p

theorem Faults.of_eq {f : ℕ → Except φ α} {p : φ} (eq : ∀ m, f m = .error p) : Faults f p :=
  ⟨0, fun m _ => eq m⟩

theorem Faults.exists_eq {f : ℕ → Except φ α} {p : φ} (faults : Faults f p) :
    ∃ n, f n = .error p := by
  obtain ⟨n, hn⟩ := faults
  exact ⟨n, hn n le_rfl⟩

theorem Faults.succ {f : ℕ → Except φ α} {p : φ} (later : Faults (fun n => f (n + 1)) p) :
    Faults f p :=
  exists_fuel_succ later

/-- What follows an error is not run. -/
theorem Faults.bind {f : ℕ → Except φ α} {g : ℕ → α → Except φ β} {p : φ}
    (first : Faults f p) : Faults (fun n => f n >>= g n) p := by
  obtain ⟨n, hn⟩ := first
  refine ⟨n, fun m le => ?_⟩
  change f m >>= g m = .error p
  rw [hn m le]
  rfl

theorem Returns.bind_faults {f : ℕ → Except φ α} {g : ℕ → α → Except φ β} {a : α} {p : φ}
    (first : Returns f a) (second : Faults (fun n => g n a) p) :
    Faults (fun n => f n >>= g n) p :=
  exists_fuel_bind first second

theorem Returns.not_faults {f : ℕ → Except φ α} {a : α} {p : φ} (returns : Returns f a) :
    ¬ Faults f p := by
  intro faults
  cases fuel_unique returns faults

/-- What ends in an error with every amount of fuel returns nothing. -/
theorem not_returns_of_eq_error {f : ℕ → Except φ α} {p : φ} (stuck : ∀ n, f n = .error p) :
    ¬ ∃ a, Returns f a := by
  intro ends
  obtain ⟨a, returns⟩ := ends
  exact returns.not_faults (Faults.of_eq stuck)

/-- A loop that goes on from every state of an invariant uses up any amount of fuel. -/
theorem eq_error_of_progress {σ : Type} (run : ℕ → σ → Except φ α) {stuck : φ}
    (invariant : σ → Prop) (empty : ∀ s, run 0 s = .error stuck)
    (step : ∀ s, invariant s → ∃ s', invariant s' ∧ ∀ n, run (n + 1) s = run n s') {s : σ}
    (holds : invariant s) (n : ℕ) : run n s = .error stuck := by
  induction n generalizing s with
  | zero => exact empty s
  | succ n ih =>
    obtain ⟨s', holds', run⟩ := step s holds
    exact (run n).trans (ih holds')

end Theory
