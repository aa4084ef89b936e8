import Mathlib.Init

/-!
# Calls that may fail an assertion or never return

A computation has a number of steps for its loops. It returns, stops at an assertion, or the steps
do not suffice.
-/

/-- How a computation ends within a number of steps. -/
inductive Outcome (α : Type) where
  | returns (value : α)
  /-- An assertion fails. -/
  | asserts
  /-- It is still running. -/
  | runs
  deriving DecidableEq, Repr

namespace Outcome

variable {α β : Type}

/-- One computation after another. -/
def andThen (first : Outcome α) (second : α → Outcome β) : Outcome β :=
  match first with
  | .returns value => second value
  | .asserts => .asserts
  | .runs => .runs

/-- An assertion, if assertions are compiled in. -/
def check (debug holds : Bool) (next : Outcome α) : Outcome α :=
  if debug && !holds then .asserts else next

variable {second : α → Outcome β}

/-- What returned is handed on. -/
@[simp] theorem andThen_returns {value : α} : (returns value).andThen second = second value := rfl

/-- Without assertions a check does nothing. -/
@[simp] theorem check_false {holds : Bool} {next : Outcome α} : check false holds next = next := rfl

/-- A sequence returns what its second part returns. -/
theorem andThen_eq_returns {first : Outcome α} {result : β} :
    first.andThen second = .returns result ↔
      ∃ value, first = .returns value ∧ second value = .returns result := by
  constructor
  · intro ends
    cases first with
    | returns value => exact ⟨value, rfl, ends⟩
    | asserts | runs => cases ends
  · rintro ⟨value, rfl, ends⟩
    exact ends

/-- A loop without a break. -/
def whileLoop (test : α → Bool) (body : α → Outcome α) : Nat → α → Outcome α
  | 0, _ => .runs
  | fuel + 1, state =>
    if test state then (body state).andThen (whileLoop test body fuel) else .returns state

/-- No assertion fails, and what is returned has the property. -/
def Safe (P : α → Prop) : Outcome α → Prop
  | .returns value => P value
  | .asserts => False
  | .runs => True

/-- Safe calls fail no assertion. -/
theorem Safe.ne_asserts {P : α → Prop} {outcome : Outcome α} (safe : outcome.Safe P) :
    outcome ≠ .asserts := by
  rintro rfl
  exact safe

/-- Safe calls compose. -/
theorem Safe.andThen {P : α → Prop} {Q : β → Prop} {first : Outcome α} (safe : first.Safe P)
    (rest : ∀ value, P value → (second value).Safe Q) : (first.andThen second).Safe Q := by
  cases first with
  | returns value => exact rest value safe
  | asserts | runs => exact safe

/-- What every round of a loop keeps, the loop keeps. -/
theorem Safe.whileLoop {P : α → Prop} {test : α → Bool} {body : α → Outcome α}
    (round : ∀ state, P state → test state = true → (body state).Safe P) (fuel : Nat) :
    ∀ state, P state → (whileLoop test body fuel state).Safe P := by
  induction fuel with
  | zero => exact fun _ _ => trivial
  | succ fuel ih =>
    intro state holds
    unfold Outcome.whileLoop
    by_cases enters : test state = true
    · rw [if_pos enters]
      exact (round state holds enters).andThen ih
    · rw [if_neg enters]
      exact holds

end Outcome
