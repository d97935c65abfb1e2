import Mathlib.Data.Nat.Notation
import Mathlib.Tactic.Basic

/-!
# How a call ends

A Rust function that cannot report an error still may panic, or loop forever:
it is modelled in `Exec`, whose error is a `Fault`.  A function returning a
`Result<_, ε>` is modelled in `Outcome ε`, which keeps the reported errors
apart from the faults, so that "returns `Ok` or `Err`" is a statement.
-/

namespace GroupAccumulator

/-- The ways a call ends without returning.  A division by zero panics in Rust and ends the
process in GMP; `invalidPointer` is GMP's allocator handed a pointer that is not its own,
`bufferTooSmall` a write behind the end of a buffer.  `outOfFuel` is no Rust outcome: it
marks a loop the model cut off. -/
inductive Fault
  | divisionByZero
  | unwrapNone
  | assertFailed
  | sliceOutOfRange
  | bufferTooSmall
  | explicitPanic
  | invalidPointer
  | outOfFuel
  deriving DecidableEq, Repr

/-- A call that returns a value unless it faults. -/
abbrev Exec (α : Type) := Except Fault α

@[simp] theorem Exec.ok_bind {α β : Type} (a : α) (f : α → Exec β) :
    ((.ok a : Exec α) >>= f) = f a := rfl

/-- A bind that returned went through two calls that did. -/
theorem Exec.bind_eq_ok {α β : Type} {m : Exec α} {f : α → Exec β} {b : β}
    (h : m >>= f = .ok b) : ∃ a, m = .ok a ∧ f a = .ok b := by
  cases m with
  | ok a => exact ⟨a, rfl, h⟩
  | error p => cases h

/-- `Option::unwrap`. -/
def unwrap {α : Type} : Option α → Exec α
  | some a => .ok a
  | none => .error .unwrapNone

@[simp] theorem unwrap_some {α : Type} (a : α) : unwrap (some a) = .ok a := rfl

/-- `assert!`. -/
def assert (b : Bool) : Exec Unit := if b then .ok () else .error .assertFailed

theorem of_assert_eq_ok {b : Bool} {u : Unit} (h : assert b = .ok u) : b = true := by
  cases b with
  | true => rfl
  | false => cases h

/-- `&xs[..n]`. -/
def sliceTo {α : Type} (xs : List α) (n : ℕ) : Exec (List α) :=
  if n ≤ xs.length then .ok (xs.take n) else .error .sliceOutOfRange

/-- `&xs[n..]`. -/
def sliceFrom {α : Type} (xs : List α) (n : ℕ) : Exec (List α) :=
  if n ≤ xs.length then .ok (xs.drop n) else .error .sliceOutOfRange

theorem sliceTo_of_le {α : Type} {xs : List α} {n : ℕ} (le : n ≤ xs.length) :
    sliceTo xs n = .ok (xs.take n) := if_pos le

theorem sliceFrom_of_le {α : Type} {xs : List α} {n : ℕ} (le : n ≤ xs.length) :
    sliceFrom xs n = .ok (xs.drop n) := if_pos le

/-- A call of a function returning `Result<α, ε>`. -/
inductive Outcome (ε α : Type)
  | ok (value : α)
  | err (error : ε)
  | fault (fault : Fault)
  deriving DecidableEq

namespace Outcome

variable {ε ε' α β : Type}

/-- The question-mark operator: errors and faults end the caller too. -/
protected def bind (o : Outcome ε α) (f : α → Outcome ε β) : Outcome ε β :=
  match o with
  | ok a => f a
  | err e => err e
  | fault p => fault p

instance : Monad (Outcome ε) where
  pure := ok
  bind := Outcome.bind

instance : LawfulMonad (Outcome ε) :=
  LawfulMonad.mk' (Outcome ε)
    (fun o => by cases o <;> rfl)
    (fun _ _ => rfl)
    (fun o _ _ => by cases o <;> rfl)

/-- A call of a function that reports no error. -/
def lift : Exec α → Outcome ε α
  | .ok a => ok a
  | .error p => fault p

/-- `Result::map_err`. -/
def mapErr (f : ε → ε') : Outcome ε α → Outcome ε' α
  | ok a => ok a
  | err e => err (f e)
  | fault p => fault p

/-- The call returns, with `Ok` or with `Err`. -/
def Completes (o : Outcome ε α) : Prop := ∀ p, o ≠ fault p

/-- A bind that ends in `Ok` went through two calls that did. -/
theorem bind_eq_ok {o : Outcome ε α} {f : α → Outcome ε β} {b : β} (h : o >>= f = ok b) :
    ∃ a, o = ok a ∧ f a = ok b := by
  cases o with
  | ok a => exact ⟨a, rfl, h⟩
  | err e => cases h
  | fault p => cases h

theorem bind_eq_ok_iff {o : Outcome ε α} {f : α → Outcome ε β} {b : β} :
    o >>= f = ok b ↔ ∃ a, o = ok a ∧ f a = ok b := by
  constructor
  · exact bind_eq_ok
  · rintro ⟨a, rfl, returned⟩
    exact returned

/-- A bind that ends in an error got it from one of two calls. -/
theorem bind_eq_err_iff {o : Outcome ε α} {f : α → Outcome ε β} {e : ε} :
    o >>= f = err e ↔ o = err e ∨ ∃ a, o = ok a ∧ f a = err e := by
  constructor
  · intro failed
    cases o with
    | ok a => exact Or.inr ⟨a, rfl, failed⟩
    | err e' =>
      cases failed
      exact Or.inl rfl
    | fault p => cases failed
  · rintro (rfl | ⟨a, rfl, failed⟩)
    · rfl
    · exact failed

theorem completes_ok (a : α) : (ok a : Outcome ε α).Completes := by
  intro p h
  cases h

theorem completes_err (e : ε) : (err e : Outcome ε α).Completes := by
  intro p h
  cases h

/-- What follows and always returns changes nothing about whether the call does. -/
theorem completes_bind {o : Outcome ε α} {f : α → Outcome ε β} (total : ∀ a, (f a).Completes) :
    (o >>= f).Completes ↔ o.Completes := by
  cases o with
  | ok a => exact ⟨fun _ => completes_ok a, fun _ => total a⟩
  | err e => exact ⟨fun _ => completes_err e, fun _ => completes_err e⟩
  | fault p => exact ⟨fun h => (h p rfl).elim, fun h => (h p rfl).elim⟩

end Outcome

end GroupAccumulator
