import Mathlib.Algebra.Group.Int.Defs
import Mathlib.Algebra.Group.Nat.Defs

/-!
# Shared vocabulary

Result codes and lock identities.
-/

namespace SQLumDash

/-- Result codes. -/
inductive Rc where
  /-- `SQLITE_OK` -/
  | ok
  /-- `SQLITE_LOCKED` -/
  | locked
  /-- `SQLITE_NOMEM` -/
  | nomem
  /-- `SQLITE_DONE` -/
  | done
  /-- `SQLITE_CORRUPT_ROWID` -/
  | corruptRowid
  /-- `SQLITE_CONSTRAINT` -/
  | constraint
  /-- Any other error of the storage layer. -/
  | error
  deriving DecidableEq, Repr

/-- The identity under which a connection takes locks. -/
structure Handle where
  pid : Nat
  /-- Process-local owner pointer. -/
  owner : Nat
  deriving DecidableEq, Repr

/-- The handle of a running connection. -/
abbrev Conn := {pHandle : Handle // pHandle.pid ≠ 0 ∧ pHandle.owner ≠ 0}

/-- Root pages; zero marks an empty slot. -/
abbrev RootPage := {iTable : Int // iTable ≠ 0}

instance : LawfulBEq RootPage := inferInstance

/-- The first of two connections of two processes. -/
def connA : Conn := ⟨⟨1, 1⟩, by decide⟩

/-- The second of the two connections. -/
def connB : Conn := ⟨⟨2, 1⟩, by decide⟩

/-- A table other than the schema table. -/
def tableTwo : RootPage := ⟨2, by decide⟩

/-- `SCHEMA_ROOT`: the root page of the schema table. -/
def schemaRoot : Int := 1

/-- The table is not the schema table. -/
theorem tableTwo_ne_schemaRoot : tableTwo.1 ≠ schemaRoot := by decide

/-- Whether `sqlite3Malloc` and `sqlite3Realloc` find the memory. -/
def sqlite3Malloc (alloc : Nat → Bool) (n : Nat) : Bool :=
  decide (0 < n ∧ n < 0x7fffff00) && alloc n

/-- Nothing near the largest `int` is given out. -/
theorem sqlite3Malloc_iff {alloc : Nat → Bool} {n : Nat} :
    sqlite3Malloc alloc n = true ↔ (0 < n ∧ n < 0x7fffff00) ∧ alloc n = true := by
  simp only [sqlite3Malloc, Bool.and_eq_true, decide_eq_true_eq]

end SQLumDash
