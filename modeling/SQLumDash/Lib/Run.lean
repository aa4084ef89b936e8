import Mathlib.Init

/-!
# Guarded runs

A run is guarded when every action meets a condition on its state. What guarded actions keep holds
in every state such a run reaches.
-/

namespace Runs

variable {State Action : Type}

/-- The state after a list of actions. -/
def run (step : State → Action → State) : State → List Action → State
  | s, [] => s
  | s, action :: rest => run step (step s action) rest

/-- Every action meets its condition. -/
def Guarded (step : State → Action → State) (guard : State → Action → Prop) :
    State → List Action → Prop
  | _, [] => True
  | s, action :: rest => guard s action ∧ Guarded step guard (step s action) rest

variable {step : State → Action → State} {guard : State → Action → Prop} {P : State → Prop}

instance Guarded.decidable [∀ s action, Decidable (guard s action)] :
    (s : State) → (actions : List Action) → Decidable (Guarded step guard s actions)
  | _, [] => inferInstanceAs (Decidable True)
  | s, action :: rest =>
    have := Guarded.decidable (step s action) rest
    inferInstanceAs (Decidable (_ ∧ _))

/-- What every action keeps, every run keeps. -/
theorem run_invariant (keeps : ∀ s action, P s → P (step s action)) {s : State}
    (actions : List Action) (holds : P s) : P (run step s actions) := by
  induction actions generalizing s with
  | nil => exact holds
  | cons action rest ih => exact ih (keeps s action holds)

/-- What a guarded action keeps, a guarded run keeps. -/
theorem Guarded.invariant (keeps : ∀ s action, P s → guard s action → P (step s action))
    {s : State} {actions : List Action} (guarded : Guarded step guard s actions) (holds : P s) :
    P (run step s actions) := by
  induction actions generalizing s with
  | nil => exact holds
  | cons action rest ih => exact ih guarded.2 (keeps s action holds guarded.1)

/-- Guards that agree everywhere guard the same runs. -/
theorem guarded_congr {guard' : State → Action → Prop}
    (same : ∀ s action, guard s action ↔ guard' s action) (s : State) (actions : List Action) :
    Guarded step guard s actions ↔ Guarded step guard' s actions := by
  induction actions generalizing s with
  | nil => exact Iff.rfl
  | cons action rest ih => exact and_congr (same s action) (ih (step s action))

/-- A log covers a state when the rest of it covers what the undo of its newest record leaves. The
undo of the whole log then leaves what needs no record. -/
theorem undone_of_covers {Record : Type} {undo : State → Record → State}
    {C : List Record → State → Prop}
    (undoes : ∀ record rest s, C (record :: rest) s → C rest (undo s record))
    (log : List Record) {s : State} (covers : C log s) : C [] (log.foldl undo s) := by
  induction log generalizing s with
  | nil => exact covers
  | cons record rest ih => exact ih (undoes record rest s covers)

end Runs
