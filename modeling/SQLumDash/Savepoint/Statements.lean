import Mathlib.Data.List.Infix
import SQLumDash.Lib.Run
import SQLumDash.Savepoint.Log

/-!
# Statements and user savepoints over several databases

A connection numbers statements and user savepoints from two counters. The numbers go onto the stack
of every database a statement starts on, and of every database for a user savepoint; the end of a
statement searches its number in all databases.
-/

namespace SQLumDash.Savepoint

open Runs Function

variable {Db Record Env : Type} [DecidableEq Db]

/-- An open savepoint or statement, with the history of each database at its start. -/
structure Frame (Db Record : Type) where
  /-- The number searched: `iStatement - 1` of a statement. -/
  iSavepoint : Int
  start : Db → Option (List Record)

/-- A connection with its attached databases. -/
structure Session (Db Record Env : Type) where
  autoCommit : Bool
  isTransactionSavepoint : Bool
  nStatement : Nat
  nSavepoint : Nat
  lockSavepoint : Db → RowLockSavepoint Record
  env : Db → Env
  /-- Innermost first. -/
  frames : List (Frame Db Record)

/-- What a connection does. -/
inductive SessionAction (Db Record Env : Type) where
  /-- `BEGIN` -/
  | begin
  /-- `SAVEPOINT` -/
  | savepoint
  /-- `ROLLBACK TO` or `RELEASE` of the savepoint at this place. -/
  | savepointEnd (op : SavepointOp) (place : Nat)
  /-- A statement without a statement transaction. -/
  | read (db : Db)
  /-- A statement that writes starts on these databases. -/
  | start (dbs : List Db)
  /-- A change that is recorded. -/
  | record (db : Db) (record : Record) (env : Env)
  | close (op : SavepointOp)
  | finish (env : Db → Env)

/-- `sqlite3TransBtreeSavepointCreate` -/
def sqlite3TransBtreeSavepointCreate (s : Session Db Record Env) (db : Db) (iSavepoint : Int) :
    Session Db Record Env :=
  { s with
    lockSavepoint := update s.lockSavepoint db
      (rowlockSavepointCreate (s.lockSavepoint db) iSavepoint) }

/-- `OP_Transaction` of a writing statement: `sqlite3TransBtreeBeginTrans`, its number at its first
database, and `sqlite3BtreeBeginStmtAll`. A read does the first. -/
def opTransaction (started : Session Db Record Env × Nat) (db : Db) :
    Session Db Record Env × Nat :=
  let s := sqlite3TransBtreeSavepointCreate started.1 db
    (started.1.nStatement + started.1.nSavepoint)
  let numbered : Session Db Record Env × Nat :=
    if started.2 = 0 then
      ({ s with nStatement := s.nStatement + 1 }, s.nSavepoint + (s.nStatement + 1))
    else (s, started.2)
  (sqlite3TransBtreeSavepointCreate numbered.1 db numbered.1.nSavepoint, numbered.2)

/-- `OP_Transaction` comes before anything else. -/
def startStatement (s : Session Db Record Env) (dbs : List Db) : Session Db Record Env :=
  let started := dbs.foldl opTransaction (s, 0)
  { started.1 with
    frames := ⟨started.2 - 1, fun db =>
      if db ∈ dbs then some (s.lockSavepoint db).pHistory else none⟩ :: s.frames }

/-- `SAVEPOINT_BEGIN` and `ROWLOCK_SAVEPOINT_CREATE` -/
def openSavepoint (s : Session Db Record Env) : Session Db Record Env :=
  let counted : Session Db Record Env :=
    if s.autoCommit then { s with autoCommit := false, isTransactionSavepoint := true }
    else { s with nSavepoint := s.nSavepoint + 1 }
  let iSavepoint : Int := counted.nStatement + counted.nSavepoint - 1
  { counted with
    lockSavepoint := fun db => rowlockSavepointCreate (s.lockSavepoint db) iSavepoint
    frames := ⟨iSavepoint, fun db => some (s.lockSavepoint db).pHistory⟩ :: s.frames }

section

variable (undo : Env → Record → Env)

section

variable (s : Session Db Record Env)

/-- `sqlite3TransBtreeSavepoint` on every database. -/
def savepointAll (op : SavepointOp) (iSavepoint : Int) : Session Db Record Env :=
  { s with
    lockSavepoint := fun db =>
      (rowlockSavepoint undo (s.lockSavepoint db) op iSavepoint (s.env db)).1
    env := fun db => (rowlockSavepoint undo (s.lockSavepoint db) op iSavepoint (s.env db)).2 }

/-- `sqlite3rowlockSavepointClose` on every database. -/
def finish (env : Db → Env) : Session Db Record Env :=
  { s with
    autoCommit := true
    isTransactionSavepoint := false
    nSavepoint := 0
    lockSavepoint := fun _ => .closed
    env := env
    frames := [] }

/-- `SAVEPOINT_ROLLBACK` or `SAVEPOINT_RELEASE`, but of a transaction savepoint. -/
def endSavepoint (op : SavepointOp) (place : Nat) : Session Db Record Env :=
  let reached := savepointAll undo s op (s.nSavepoint - place - 1)
  match op with
  | .rollback => { reached with nSavepoint := s.nSavepoint - place, frames := s.frames.drop place }
  | .release =>
    { reached with
      nSavepoint := s.nSavepoint - (place + 1)
      frames := s.frames.drop (place + 1) }

/-- `vdbeCloseStatement` of the innermost statement. -/
def vdbeCloseStatement (op : SavepointOp) : Session Db Record Env :=
  match s.frames with
  | [] => s
  | frame :: rest =>
    let undone :=
      match op with
      | .rollback => savepointAll undo s .rollback frame.iSavepoint
      | .release => s
    let released := savepointAll undo undone .release frame.iSavepoint
    { released with nStatement := s.nStatement - 1, frames := rest }

/-- One action. -/
def sessionStep : SessionAction Db Record Env → Session Db Record Env
  | .begin => { s with autoCommit := false }
  | .savepoint => openSavepoint s
  | .savepointEnd op place => endSavepoint undo s op place
  | .read db => sqlite3TransBtreeSavepointCreate s db (s.nStatement + s.nSavepoint)
  | .start dbs => startStatement s dbs
  | .record db record env =>
    { s with
      lockSavepoint := update s.lockSavepoint db
        (sqlite3rowlockHistoryAdd true (s.lockSavepoint db) record).2
      env := update s.env db env }
  | .close op => vdbeCloseStatement undo s op
  | .finish env => finish s env

end

end

/-- A connection without a transaction. -/
def Session.idle (env : Db → Env) : Session Db Record Env :=
  ⟨true, false, 0, 0, fun _ => .closed, env, []⟩

section

variable (s : Session Db Record Env)

/-- User savepoints are opened, rolled back to and released when no statement is open, and so is the
transaction ended. -/
def WellNested : SessionAction Db Record Env → Prop
  | .begin => True
  | .savepoint => s.nStatement = 0
  | .savepointEnd op place =>
    s.nStatement = 0 ∧ place < s.frames.length ∧
      (s.isTransactionSavepoint = true → op = .release → place + 1 < s.frames.length)
  | .read _ => True
  | .start dbs => dbs ≠ [] ∧ dbs.Nodup
  | .record .. => True
  | .close _ => 0 < s.nStatement
  | .finish _ => s.nStatement = 0

/-- The outermost statement shares no database with another. -/
def Unmasked (nSavepoint : Nat) (frames : List (Frame Db Record)) : Prop :=
  ∀ outer ∈ frames, ∀ inner ∈ frames, outer.iSavepoint = nSavepoint →
    outer.iSavepoint < inner.iSavepoint → ∀ db, outer.start db = none ∨ inner.start db = none

/-- Inside others a statement stays on one database; a database it leaves out does not have its
number on the stack; and the statements around it do not hide each other's entries. -/
def Unshared : SessionAction Db Record Env → Prop
  | .start dbs =>
    (s.nStatement = 0 ∨ dbs.length = 1) ∧
      (∀ db, db ∉ dbs → ∀ entry ∈ (s.lockSavepoint db).pSavepoints,
        entry.iSavepoint ≠ s.nStatement + s.nSavepoint) ∧
      Unmasked s.nSavepoint s.frames
  | _ => True

/-- What `OP_Transaction` leaves in a log. -/
def startedLog (log : RowLockSavepoint Record) (iSavepoint : Int) (nSavepoint : Nat) :
    RowLockSavepoint Record :=
  rowlockSavepointCreate (rowlockSavepointCreate log iSavepoint) nSavepoint

/-- On a further database. -/
theorem opTransaction_next {iStatement : Nat} (later : iStatement ≠ 0) (db : Db) :
    opTransaction (s, iStatement) db =
      ({ s with
          lockSavepoint := update s.lockSavepoint db
            (startedLog (s.lockSavepoint db) (s.nStatement + s.nSavepoint) s.nSavepoint) },
        iStatement) := by
  simp [opTransaction, later, sqlite3TransBtreeSavepointCreate, startedLog]

/-- On the first database. -/
theorem opTransaction_first (db : Db) : opTransaction (s, 0) db =
      ({ s with
          nStatement := s.nStatement + 1
          lockSavepoint := update s.lockSavepoint db
            (startedLog (s.lockSavepoint db) (s.nStatement + s.nSavepoint) s.nSavepoint) },
        s.nSavepoint + (s.nStatement + 1)) := by
  simp [opTransaction, sqlite3TransBtreeSavepointCreate, startedLog]

end

/-- On the other databases. -/
theorem opTransaction_rest {dbs : List Db} (distinct : dbs.Nodup) {iStatement : Nat}
    (later : iStatement ≠ 0) (s : Session Db Record Env) :
    dbs.foldl opTransaction (s, iStatement) =
      ({ s with
          lockSavepoint := fun db =>
            if db ∈ dbs then
              startedLog (s.lockSavepoint db) (s.nStatement + s.nSavepoint) s.nSavepoint
            else s.lockSavepoint db },
        iStatement) := by
  induction dbs generalizing s with
  | nil => simp
  | cons first rest ih =>
    obtain ⟨fresh, distinct⟩ := List.nodup_cons.1 distinct
    rw [List.foldl_cons, opTransaction_next s later, ih distinct]
    congr 2
    funext db
    by_cases here : db = first
    · subst here
      simp [fresh]
    · simp [here]

/-- The log of each database after the start of a statement. -/
theorem startStatement_eq (s : Session Db Record Env) {first : Db} {rest : List Db}
    (distinct : (first :: rest).Nodup) :
    startStatement s (first :: rest) =
      { s with
        nStatement := s.nStatement + 1
        lockSavepoint := fun db =>
          if db = first then
            startedLog (s.lockSavepoint db) (s.nStatement + s.nSavepoint) s.nSavepoint
          else if db ∈ rest then
            startedLog (s.lockSavepoint db) (s.nStatement + s.nSavepoint + 1) s.nSavepoint
          else s.lockSavepoint db
        frames := ⟨s.nStatement + s.nSavepoint, fun db =>
          if db ∈ first :: rest then some (s.lockSavepoint db).pHistory else none⟩ :: s.frames } := by
  obtain ⟨fresh, distinct⟩ := List.nodup_cons.1 distinct
  have number : ((s.nSavepoint + (s.nStatement + 1) : Nat) : Int) - 1 =
      s.nStatement + s.nSavepoint := by omega
  have later : ((s.nStatement + 1 : Nat) : Int) + s.nSavepoint =
      s.nStatement + s.nSavepoint + 1 := by omega
  unfold startStatement
  rw [List.foldl_cons, opTransaction_first, opTransaction_rest distinct (by omega)]
  dsimp only
  rw [number, later]
  congr 1
  funext db
  by_cases here : db = first
  · subst here
    simp [fresh]
  · simp [here]

end SQLumDash.Savepoint
