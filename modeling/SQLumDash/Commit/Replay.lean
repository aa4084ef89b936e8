import SQLumDash.Commit.LockTables
import SQLumDash.Lib.Outcome
import SQLumDash.Savepoint.Tables
import Std.Data.ExtTreeMap

/-!
# The commit of a transaction

A commit takes the exclusive locks, replays the trees of every table on its shared tree, and ends
the transaction. One loop deletes the keys of the deletion tree, unless all rows are deleted, and
one inserts the rows of the insertion tree. Every call into the b-tree layer may fail.
-/

namespace SQLumDash.Commit

open Ipc Psm Std

/-- The shared trees, each under the order of its table. -/
abbrev Shared (Key Data : Type) (cmp : RootPage → Key → Key → Ordering) :=
  (iTable : RootPage) → ExtTreeMap Key Data (cmp iTable)

/-- What can fail while a table is replayed, by the round of the loop. -/
structure ReplayFault where
  /-- `sqlite3BtreeLockTableOriginal` or `sqlite3BtreeCursorAll` -/
  cursor : Option Failure
  /-- `sqlite3BtreeClearTableOfCursorOriginal` -/
  clear : Option Failure
  delete : Nat → Option Failure
  insert : Nat → Option Failure

/-- What can fail during a commit. -/
structure CommitFaults where
  lock : LockFaults
  /-- `rowlockBtreeCacheReset`, skipped while the schema changes. -/
  cacheReset : Option Failure
  pCur : Bool
  beginTrans : Option Failure
  table : RootPage → ReplayFault

section Loops

variable {Key Data : Type} {cmp : Key → Key → Ordering} [TransCmp cmp]

/-- The loop of `transBtreeCommitTableDelete`. An absent key fails the assertion. -/
def commitDeleteLoop (fault : Nat → Option Failure) :
    Nat → List Key → ExtTreeMap Key Data cmp → Outcome (Rc × ExtTreeMap Key Data cmp)
  | round, [], shared => .returns (((fault round).map Subtype.val).getD .ok, shared)
  | round, key :: rest, shared =>
    match fault round with
    | some failure => .returns (failure.1, shared)
    | none =>
      if key ∈ shared then commitDeleteLoop fault (round + 1) rest (shared.erase key)
      else .asserts

/-- `transBtreeCommitTableDelete`, with the cursor open. -/
def transBtreeCommitTableDelete (fault : ReplayFault) (deleteAll : Bool) (del : List Key)
    (shared : ExtTreeMap Key Data cmp) : Outcome (Rc × ExtTreeMap Key Data cmp) :=
  if deleteAll then
    match fault.clear with
    | some failure => .returns (failure.1, shared)
    | none => .returns (.ok, ∅)
  else commitDeleteLoop fault.delete 0 del shared

/-- `transBtreeCommitTableInsert`. The search only chooses flags. -/
def transBtreeCommitTableInsert (fault : Nat → Option Failure) :
    Nat → List (Key × Data) → ExtTreeMap Key Data cmp → Rc × ExtTreeMap Key Data cmp
  | round, [], shared => (((fault round).map Subtype.val).getD .ok, shared)
  | round, row :: rest, shared =>
    match fault round with
    | some failure => (failure.1, shared)
    | none => transBtreeCommitTableInsert fault (round + 1) rest (shared.insert row.1 row.2)

/-- What the commit does to one table. -/
def commitTable (fault : ReplayFault) (table : TransTable Key Data)
    (shared : ExtTreeMap Key Data cmp) : Outcome (Rc × ExtTreeMap Key Data cmp) :=
  match fault.cursor with
  | some failure => .returns (failure.1, shared)
  | none =>
    (transBtreeCommitTableDelete fault table.root.deleteAll table.del shared).andThen fun deleted =>
      if deleted.1 = .ok then
        .returns (transBtreeCommitTableInsert fault.insert 0 table.ins deleted.2)
      else .returns deleted

end Loops

variable {Key Data Record : Type} {cmp : RootPage → Key → Key → Ordering} [∀ t, TransCmp (cmp t)]

/-- The loop over the elements of `rootPages`. -/
def commitTables (fault : RootPage → ReplayFault) :
    List (TransTable Key Data) → Shared Key Data cmp → Outcome (Rc × Shared Key Data cmp)
  | [], shared => .returns (.ok, shared)
  | table :: rest, shared =>
    (commitTable (fault table.iTable) table (shared table.iTable)).andThen fun replayed =>
      let shared := Function.update shared table.iTable replayed.2
      if replayed.1 = .ok then commitTables fault rest shared else .returns (replayed.1, shared)

/-- A transaction, shared trees and shared memory. -/
structure CommitState (Key Data Record : Type) (cmp : RootPage → Key → Key → Ordering) where
  /-- The transaction has its own database. -/
  transBtreeIsUsed : Bool
  /-- `BTS_READ_ONLY` of the shared tree. -/
  readOnly : Bool
  rootPages : RootPages Key Data
  lockSavepoint : Savepoint.RowLockSavepoint (Savepoint.RowLockHistory Record)
  shared : Shared Key Data cmp
  stores : Stores Record

section

variable (cfg : Config Record) (conn : Conn)

/-- `sqlite3TransBtreeRollback`, without cached rowids. -/
def sqlite3TransBtreeRollback (s : CommitState Key Data Record cmp) :
    CommitState Key Data Record cmp :=
  if s.transBtreeIsUsed then
    { s with
      lockSavepoint := .closed
      rootPages := ⟨[], List.nodup_nil⟩
      stores := ⟨sqlite3rowlockIpcUnlockRecordProc cfg.row conn.1 s.stores.rows,
        sqlite3rowlockIpcUnlockTablesProc cfg.table conn.1 s.stores.tables,
        sqlite3rowlockPsmUnlockRecordProc cfg.record.blobHash conn.1 s.stores.indexes⟩ }
  else s

/-- `sqlite3TransBtreeCommit` under the exclusive locks. -/
def commitLocked (faults : CommitFaults) (isDdl : Bool) (s : CommitState Key Data Record cmp) :
    Outcome (Rc × CommitState Key Data Record cmp) :=
  match (if isDdl then none else faults.cacheReset) with
  | some failure => .returns (failure.1, s)
  | none =>
    if faults.pCur then .returns (.nomem, s)
    else
      match faults.beginTrans with
      | some failure => .returns (failure.1, s)
      | none =>
        (commitTables faults.table s.rootPages.1 s.shared).andThen fun replayed =>
          let s := { s with shared := replayed.2 }
          if replayed.1 = .ok then .returns (.ok, sqlite3TransBtreeRollback cfg conn s)
          else .returns (replayed.1, s)

/-- `sqlite3TransBtreeCommit` -/
def sqlite3TransBtreeCommit (faults : CommitFaults) (s : CommitState Key Data Record cmp) :
    Outcome (Rc × CommitState Key Data Record cmp) :=
  if !s.transBtreeIsUsed || s.readOnly then .returns (.ok, s)
  else
    let isDdl := decide (sqlite3rowlockIpcLockTableQuery cfg.table conn.1 s.stores.tables
      schemaRoot = .write)
    let locked := exclusiveLockTables cfg.table conn faults.lock s.rootPages s.stores.tables
    let s := { s with stores.tables := locked.2 }
    if locked.1 = .ok then commitLocked cfg conn faults isDdl s
    else .returns (locked.1, s)

end

end SQLumDash.Commit
