import Mathlib.Init

/-!
# Programs that call their environment

A program is a function of the calls made so far, which gives its result and its own calls. An
environment answers from the whole history, so what holds for every environment holds for every
sequence of answers.
-/

/-- From the calls so far: the result and the calls made, in order. -/
def Traced (Call Err α : Type) : Type := List Call → Except Err α × List Call

namespace Traced

variable {Call Answer Err α β : Type} {P : Call → Prop} {call : Call} {history : List Call}

/-- How a call is answered, after the calls made so far. -/
abbrev Environment (Call Answer : Type) : Type := List Call → Call → Answer

instance : Monad (Traced Call Err) where
  pure value := fun _ => (.ok value, [])
  bind program next := fun history =>
    match program history with
    | (.error error, calls) => (.error error, calls)
    | (.ok value, calls) =>
      let rest := next value (history ++ calls)
      (rest.1, calls ++ rest.2)

/-- The program stops. -/
def fail (error : Err) : Traced Call Err α := fun _ => (.error error, [])

/-- One call of the environment. -/
def ask (env : Environment Call Answer) (call : Call) : Traced Call Err Answer :=
  fun history => (.ok (env history call), [call])

/-- A program that runs only under a condition. -/
def when (condition : Bool) (program : Traced Call Err Unit) : Traced Call Err Unit :=
  if condition then program else pure ()

/-- A program for one element after another. -/
def each (program : α → Traced Call Err Unit) : List α → Traced Call Err Unit
  | [] => pure ()
  | value :: rest => do
    program value
    each program rest

/-- One program after another. -/
theorem bind_eq (program : Traced Call Err α) (next : α → Traced Call Err β) :
    (program >>= next) history =
      match program history with
      | (.error error, calls) => (.error error, calls)
      | (.ok value, calls) =>
        let rest := next value (history ++ calls)
        (rest.1, calls ++ rest.2) :=
  rfl

/-- The calls of two programs in turn. -/
theorem mem_calls_bind {program : Traced Call Err α} {next : α → Traced Call Err β} :
    call ∈ ((program >>= next) history).2 ↔ call ∈ (program history).2 ∨
      ∃ value, (program history).1 = .ok value ∧
        call ∈ (next value (history ++ (program history).2)).2 := by
  rw [bind_eq]
  cases ran : program history with
  | mk result calls =>
    cases result with
    | error error | ok value => simp

/-- The result of two programs in turn. -/
theorem result_bind {program : Traced Call Err α} {next : α → Traced Call Err β} {result : β} :
    ((program >>= next) history).1 = .ok result ↔
      ∃ value, (program history).1 = .ok value ∧
        (next value (history ++ (program history).2)).1 = .ok result := by
  rw [bind_eq]
  cases ran : program history with
  | mk result calls =>
    cases result with
    | error error | ok value => simp

/-- Whatever the answers, a result has a property. -/
def Gives (Q : α → Prop) (program : Traced Call Err α) : Prop :=
  ∀ history value, (program history).1 = .ok value → Q value

namespace Gives

variable {Q : α → Prop} {R : β → Prop} {program other : Traced Call Err α}
  {next : α → Traced Call Err β}

/-- A value gives what it has. -/
theorem pure {value : α} (holds : Q value) : Gives Q (Pure.pure value : Traced Call Err α) := by
  intro history result given
  rw [← Except.ok.inj given]
  exact holds

/-- What the second program gives. -/
theorem bind (second : ∀ value, Gives R (next value)) : Gives R (program >>= next) := by
  intro history result given
  obtain ⟨value, -, late⟩ := result_bind.1 given
  exact second value _ result late

/-- Both branches give it. -/
theorem ite {condition : Prop} [Decidable condition] (yes : condition → Gives Q program)
    (no : ¬ condition → Gives Q other) : Gives Q (if condition then program else other) := by
  by_cases holds : condition
  · rw [if_pos holds]
    exact yes holds
  · rw [if_neg holds]
    exact no holds

end Gives

/-- Whatever the answers, only calls with a property are made. -/
def Makes (P : Call → Prop) (program : Traced Call Err α) : Prop :=
  ∀ history, ∀ call ∈ (program history).2, P call

namespace Makes

variable {program : Traced Call Err α} {next : α → Traced Call Err β}

/-- A value makes no call. -/
theorem pure (value : α) : Makes P (Pure.pure value : Traced Call Err α) :=
  fun _ _ member => nomatch member

/-- An error makes no call. -/
theorem fail (error : Err) : Makes P (Traced.fail error : Traced Call Err α) :=
  fun _ _ member => nomatch member

/-- A question is one call. -/
theorem ask (env : Environment Call Answer) (holds : P call) :
    Makes P (Traced.ask env call : Traced Call Err Answer) := by
  intro history made member
  rw [List.mem_singleton.1 member]
  exact holds

/-- The second program may rely on what the first one gives. -/
theorem bind_gives {Q : α → Prop} (first : Makes P program) (gives : Gives Q program)
    (second : ∀ value, Q value → Makes P (next value)) : Makes P (program >>= next) := by
  intro history made member
  rcases mem_calls_bind.1 member with early | ⟨value, given, late⟩
  · exact first history made early
  · exact second value (gives history value given) _ made late

/-- The calls of both programs. -/
theorem bind (first : Makes P program) (second : ∀ value, Makes P (next value)) :
    Makes P (program >>= next) :=
  bind_gives first (fun _ _ _ => trivial) fun value _ => second value

/-- The calls of the branch taken. -/
theorem ite {condition : Prop} [Decidable condition] {other : Traced Call Err α}
    (yes : condition → Makes P program) (no : ¬ condition → Makes P other) :
    Makes P (if condition then program else other) := by
  by_cases holds : condition
  · rw [if_pos holds]
    exact yes holds
  · rw [if_neg holds]
    exact no holds

/-- The calls of a conditional program. -/
theorem when {condition : Bool} {program : Traced Call Err Unit}
    (under : condition = true → Makes P program) : Makes P (Traced.when condition program) :=
  ite under fun _ => pure ()

/-- The calls of a loop. -/
theorem each {program : α → Traced Call Err Unit} (single : ∀ value, Makes P (program value))
    (values : List α) : Makes P (Traced.each program values) := by
  induction values with
  | nil => exact pure ()
  | cons value rest ih => exact bind (single value) fun _ => ih

end Makes

end Traced
