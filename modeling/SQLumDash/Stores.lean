import SQLumDash.Ipc.RowLocks
import SQLumDash.Ipc.TableCompat
import SQLumDash.Psm.IndexLocks

/-!
# The shared memory of a database

The three stores of locks are lawful after any calls.
-/

namespace SQLumDash

open Ipc Psm Runs

/-- The three stores of locks in shared memory. -/
structure Stores (Key : Type) where
  rows : RowArea
  tables : TableArea
  indexes : PsmList Key

/-- What the processes that use the stores agree on. -/
structure Config (Key : Type) where
  row : RowConfig
  table : TableConfig
  record : RecordClass Key

variable {Key : Type}

/-- The calls that change the stores. -/
inductive StoreCall (Key : Type) where
  /-- `sqlite3rowlockIpcLockRecord` -/
  | lockRecord (conn : Conn) (iTable : RootPage) (rowid : Int)
  /-- `sqlite3rowlockIpcUnlockRecord` -/
  | unlockRecord (iTable : RootPage) (rowid : Int)
  /-- `sqlite3rowlockIpcUnlockRecordProc` -/
  | unlockRecordProc (pHandle : Handle)
  /-- A call on the table locks. -/
  | table (call : TableCall)
  /-- `sqlite3rowlockPsmCreateTable` -/
  | createIndex (alloc : PsmAlloc) (iTable : RootPage)
  /-- `sqlite3rowlockPsmLockRecord` -/
  | lockIndex (alloc : PsmAlloc) (conn : Conn) (iTable : RootPage) (key : Key)
  /-- `sqlite3rowlockPsmUnlockRecord` -/
  | unlockIndex (iTable : RootPage) (key : Key)
  /-- `sqlite3rowlockPsmUnlockRecordProc` -/
  | unlockIndexProc (pHandle : Handle)

/-- The stores after a call. -/
def StoreCall.perform (cfg : Config Key) (stores : Stores Key) : StoreCall Key → Stores Key
  | .lockRecord conn iTable rowid =>
    { stores with
      rows := (sqlite3rowlockIpcLockRecord cfg.row conn.1 stores.rows iTable.1 rowid).2 }
  | .unlockRecord iTable rowid =>
    { stores with rows := sqlite3rowlockIpcUnlockRecord cfg.row stores.rows iTable.1 rowid }
  | .unlockRecordProc pHandle =>
    { stores with rows := sqlite3rowlockIpcUnlockRecordProc cfg.row pHandle stores.rows }
  | .table call => { stores with tables := call.perform cfg.table stores.tables }
  | .createIndex alloc iTable =>
    { stores with indexes := (sqlite3rowlockPsmCreateTable alloc stores.indexes iTable).2 }
  | .lockIndex alloc conn iTable key =>
    { stores with indexes :=
        (sqlite3rowlockPsmLockRecord cfg.record alloc conn.1 stores.indexes iTable key).2 }
  | .unlockIndex iTable key =>
    { stores with
      indexes := sqlite3rowlockPsmUnlockRecord cfg.record stores.indexes iTable key }
  | .unlockIndexProc pHandle =>
    { stores with
      indexes := sqlite3rowlockPsmUnlockRecordProc cfg.record.blobHash pHandle stores.indexes }

/-- The stores before the first connection. -/
def Stores.init : Stores Key := ⟨rowClassInitArea, tableClassInitArea, .init⟩

/-- The stores after a sequence of calls. -/
def Stores.after (cfg : Config Key) (calls : List (StoreCall Key)) : Stores Key :=
  run (StoreCall.perform cfg) .init calls

/-- The invariants of the three stores. -/
structure Stores.Lawful (cfg : Config Key) (stores : Stores Key) : Prop where
  rows : stores.rows.Lawful cfg.row
  tables : stores.tables.Lawful cfg.table
  indexes : stores.indexes.Lawful cfg.record

/-- Every call keeps the stores lawful. -/
theorem Stores.Lawful.perform {cfg : Config Key} {stores : Stores Key} (call : StoreCall Key)
    (lawful : stores.Lawful cfg) : (call.perform cfg stores).Lawful cfg := by
  obtain ⟨rows, tables, indexes⟩ := lawful
  cases call with
  | lockRecord conn iTable rowid => exact ⟨(rows.lock conn.1 iTable.2 rowid).1, tables, indexes⟩
  | unlockRecord iTable rowid =>
    exact ⟨RowLockTable.unlock_lawful ⟨stores.rows, rows⟩ iTable rowid, tables, indexes⟩
  | unlockRecordProc pHandle => exact ⟨(rows.unlockProc pHandle).1, tables, indexes⟩
  | table call => exact ⟨rows, TableArea.Lawful.perform tables call, indexes⟩
  | createIndex alloc iTable => exact ⟨rows, tables, (indexes.createTable alloc iTable).1⟩
  | lockIndex alloc conn iTable key =>
    exact ⟨rows, tables, (indexes.lockRecord alloc conn.1 iTable key).1⟩
  | unlockIndex iTable key => exact ⟨rows, tables, (indexes.unlockRecord iTable key).1⟩
  | unlockIndexProc pHandle => exact ⟨rows, tables, (indexes.unlockProc pHandle).1⟩

/-- So does any sequence of calls. -/
theorem Stores.after_lawful (cfg : Config Key) (calls : List (StoreCall Key)) :
    (Stores.after cfg calls).Lawful cfg :=
  run_invariant (P := Stores.Lawful cfg) (fun _ call lawful => lawful.perform call) calls
    ⟨RowArea.init_lawful cfg.row, TableArea.init_lawful cfg.table,
      PsmList.init_lawful cfg.record⟩

/-- Two slots in each area, and numbers for records. -/
def smallConfig : Config Nat :=
  ⟨rowConfig 2 (by decide), tableConfig 2 (by decide), ⟨id, fun _ key key' => key == key'⟩⟩

end SQLumDash
