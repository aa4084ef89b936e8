import Mathlib.Data.List.Basic

/-!
# Stores into a piece of memory

A store is undefined where it leaves the memory.
-/

namespace Memory

variable {α : Type*}

/-- What is written, and where. -/
structure Store (α : Type*) where
  start : Nat
  bytes : List α
  deriving DecidableEq, Repr

/-- The memory after a store. -/
def store (memory : List α) (s : Store α) : Option (List α) :=
  if s.start + s.bytes.length ≤ memory.length then
    some (memory.take s.start ++ s.bytes ++ memory.drop (s.start + s.bytes.length))
  else none

/-- The memory after some stores. -/
def storeAll : List α → List (Store α) → Option (List α)
  | memory, [] => some memory
  | memory, s :: rest => (store memory s).bind (storeAll · rest)

/-- A store replaces what stands at its place. -/
theorem store_middle {front old bytes rest : List α} (same : old.length = bytes.length) :
    store (front ++ old ++ rest) ⟨front.length, bytes⟩ = some (front ++ bytes ++ rest) := by
  have inside : front.length + bytes.length ≤ (front ++ old ++ rest).length := by
    simp only [List.length_append]
    omega
  have taken : (front ++ old ++ rest).take front.length = front := by simp
  have dropped : (front ++ old ++ rest).drop (front.length + bytes.length) = rest := by
    rw [← same, ← List.length_append, List.drop_left]
  simp only [store, if_pos inside, taken, dropped]

/-- A store stays in the memory and keeps its size. -/
theorem store_some {memory after : List α} {s : Store α} (stored : store memory s = some after) :
    s.start + s.bytes.length ≤ memory.length ∧ after.length = memory.length := by
  unfold store at stored
  split at stored
  · next inside =>
    cases stored
    refine ⟨inside, ?_⟩
    simp only [List.length_append, List.length_take, List.length_drop]
    omega
  · cases stored

end Memory
