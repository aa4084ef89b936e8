import SQLumDash.Ipc.TableCompat
import SQLumDash.Savepoint.Log
import SQLumDash.Stores

/-!
# Tables in a transaction

For every table it has written or cleared, a transaction keeps the root pages of its trees and the
flag for a deletion of all rows. The first cursor makes the trees, and the deletion of all rows an
entry without trees. Both record what a rollback has to undo, and so do the table locks. What the
calls into the b-tree layer and the allocator return are inputs.
-/

namespace SQLumDash.Savepoint

open Ipc Psm Function

/-- `HistoryType` -/
inductive HistoryType where
  /-- `RLH_REOCRD` -/
  | record
  /-- `RLH_INDEX` -/
  | index
  /-- `RLH_NEW_TABLE` -/
  | newTable
  /-- `RLH_NEW_INDEX` -/
  | newIndex
  /-- `RLH_TABLE_LOCK` -/
  | tableLock
  /-- `RLH_TABLE_CLEAR` -/
  | tableClear
deriving DecidableEq, Repr

/-- `RowLockHistory`; the fields depend on the type. -/
structure RowLockHistory (Key : Type) where
  type : HistoryType
  iTable : RootPage
  n : Int
  p : Option Key
  /-- A lock level, or the flag for a deletion of all rows. -/
  prev : Nat
deriving DecidableEq, Repr

/-- Pages of the transaction's own database. -/
abbrev Pgno := {pgno : Nat // 0 < pgno}

/-- `TransRootPage`; zero for no trees. -/
structure TransRootPage where
  iIns : Nat
  iDel : Nat
  deleteAll : Bool
deriving DecidableEq, Repr

/-- The map `rootPages` of a transaction. -/
abbrev RootPages := RootPage → Option TransRootPage

/-- What an undo changes: root pages and shared memory. -/
structure TransEnv (Key : Type) where
  rootPages : RootPages
  stores : Stores Key

/-- A transaction. -/
structure TransState (Key : Type) where
  env : TransEnv Key
  lockSavepoint : RowLockSavepoint (RowLockHistory Key)
  inTransaction : Bool

variable {Key : Type}

/-- `addTransRootPage`. An entry that exists is completed. -/
def addTransRootPage (memory : Bool) (rootPages : RootPages) (iTable : RootPage)
    (iInsTable iDelTable : Nat) : Option RootPages :=
  match rootPages iTable with
  | some pOld =>
    some (update rootPages iTable (some { pOld with iIns := iInsTable, iDel := iDelTable }))
  | none =>
    if memory then
      some (update rootPages iTable (some ⟨iInsTable, iDelTable, false⟩))
    else none

/-- The transaction with another record in its history. -/
def addHistory (memory : Bool) (s : TransState Key) (record : RowLockHistory Key) :
    Rc × TransState Key :=
  let added := sqlite3rowlockHistoryAdd memory s.lockSavepoint record
  (added.1, { s with lockSavepoint := added.2 })

/-- `sqlite3rowlockHistoryAddNewTable` -/
def historyNewTable (iTable : RootPage) : RowLockHistory Key := ⟨.newTable, iTable, 0, none, 0⟩

/-- `sqlite3rowlockHistoryAddNewIndex` -/
def historyNewIndex (iTable : RootPage) : RowLockHistory Key := ⟨.newIndex, iTable, 0, none, 0⟩

/-- `sqlite3rowlockHistoryAddTableLock` -/
def historyTableLock (iTable : RootPage) (prevLock : TableLock) : RowLockHistory Key :=
  ⟨.tableLock, iTable, 0, none, prevLock.level⟩

/-- `sqlite3rowlockHistoryAddTableClear` -/
def historyTableClear (iTable : RootPage) (deleteAll : Bool) : RowLockHistory Key :=
  ⟨.tableClear, iTable, 0, none, deleteAll.toNat⟩

/-- What a row operation records. -/
inductive RowRecord (Key : Type) where
  | record (iTable : RootPage) (rowid : Int)
  | index (iTable : RootPage) (key : Key)

/-- The record in the history. -/
def RowRecord.history : RowRecord Key → RowLockHistory Key
  | .record iTable rowid => ⟨.record, iTable, rowid, none, 0⟩
  | .index iTable key => ⟨.index, iTable, 0, some key, 0⟩

/-- The inputs of `sqlite3TransBtreeCreateTable`. -/
structure CreateCalls where
  /-- `sqlite3BtreeBeginTransOriginal` -/
  begins : Bool
  /-- Memory for the first savepoint. -/
  savepoint : Bool
  /-- `nStatement + nSavepoint` -/
  iSavepoint : Int
  /-- The first tree, if created. -/
  iInsTable : Option Pgno
  iDelTable : Option Pgno
  unique : Bool
  psm : PsmAlloc
  indexHistory : Bool
  /-- Memory for the entry of `rootPages`. -/
  memory : Bool
  /-- Memory for the record of the table. -/
  history : Bool

/-- The inputs of `sqlite3TransBtreeClearTable`. -/
structure ClearCalls where
  /-- Memory for the record of the table lock. -/
  lockHistory : Bool
  isIndex : Bool
  /-- The rowids in the shared tree, if they can be read. -/
  rowids : Option (List Int)
  /-- `sqlite3BtreeClearTable` -/
  clears : Bool
  memory : Bool
  /-- `btreeCountEntry`, if asked for. -/
  counts : Bool
  /-- Memory for the record of the deletion. -/
  history : Bool

section

variable (cfg : Config Key) (conn : Conn)

/-- `sqlite3rowlockIpcLockTableAndAddHistory` -/
def sqlite3rowlockIpcLockTableAndAddHistory (memory : Bool) (s : TransState Key)
    (iTable : RootPage) (eLock : TableLock) : Rc × TransState Key :=
  let locked := sqlite3rowlockIpcLockTable cfg.table conn.1 s.env.stores.tables iTable.1 eLock .normal
  let prevLock := locked.2.2.getD eLock
  let s := { s with env.stores.tables := locked.2.1 }
  if locked.1 = .ok then
    if eLock.level > prevLock.level then addHistory memory s (historyTableLock iTable prevLock)
    else (.ok, s)
  else (locked.1, s)

/-- `sqlite3TransBtreeBeginTrans` -/
def sqlite3TransBtreeBeginTrans (calls : CreateCalls) (s : TransState Key) : Rc × TransState Key :=
  if calls.begins then
    if calls.savepoint then
      (.ok, { s with
        lockSavepoint := rowlockSavepointCreate s.lockSavepoint calls.iSavepoint
        inTransaction := true })
    else (.nomem, { s with inTransaction := true })
  else (.error, s)

section

variable (calls : CreateCalls) (s : TransState Key) (iTable : RootPage)

/-- The index space of `sqlite3TransBtreeCreateTable`. -/
def createIndexSpace : Rc × TransState Key :=
  if calls.unique then
    let created := sqlite3rowlockPsmCreateTable calls.psm s.env.stores.indexes iTable
    let s := { s with env.stores.indexes := created.2 }
    if created.1 = .ok then addHistory calls.indexHistory s (historyNewIndex iTable)
    else (created.1, s)
  else (.ok, s)

/-- The end of `sqlite3TransBtreeCreateTable`. -/
def associate (iInsTable iDelTable : Pgno) : Rc × TransState Key :=
  match addTransRootPage calls.memory s.env.rootPages iTable iInsTable.1 iDelTable.1 with
  | none => (.nomem, s)
  | some rootPages =>
    addHistory calls.history { s with env.rootPages := rootPages } (historyNewTable iTable)

/-- `sqlite3TransBtreeCreateTable` -/
def sqlite3TransBtreeCreateTable : Rc × TransState Key :=
  let begun := if s.inTransaction then (.ok, s) else sqlite3TransBtreeBeginTrans calls s
  if begun.1 = .ok then
    match calls.iInsTable, calls.iDelTable with
    | some iInsTable, some iDelTable =>
      let created := createIndexSpace calls begun.2 iTable
      if created.1 = .ok then associate calls created.2 iTable iInsTable iDelTable else created
    | _, _ => (.error, begun.2)
  else begun

/-- `transBtreeCursor`: the first one makes the trees. -/
def transBtreeCursor (wrFlag : Bool) : Rc × TransState Key :=
  if iTable.1 = schemaRoot then (.ok, s)
  else
    let complete := match s.env.rootPages iTable with
      | none => false
      | some pRootPage => decide (pRootPage.iIns ≠ 0)
    if complete then (.ok, s)
    else if !s.inTransaction && !wrFlag then (.ok, s)
    else sqlite3TransBtreeCreateTable calls s iTable

end

/-- `rowlockLockRecordsQuery` -/
def rowlockLockRecordsQuery (calls : ClearCalls) (rows : RowArea) (iTable : RootPage) : Rc :=
  if calls.isIndex then .ok
  else
    match calls.rowids with
    | none => .error
    | some rowids =>
      ((rowids.map fun rowid => sqlite3rowlockIpcLockRecordQuery cfg.row conn.1 rows iTable.1
        rowid).find? fun rc => decide (rc ≠ .ok)).getD .ok

section

variable (calls : ClearCalls) (s : TransState Key) (iTable : RootPage)

/-- The entry of `sqlite3TransBtreeClearTable`, made if needed. -/
def clearedRootPage : Except Rc (TransRootPage × RootPages) :=
  match s.env.rootPages iTable with
  | some pRootPage =>
    if pRootPage.iIns > 0 ∧ calls.clears = false then .error .error
    else .ok (pRootPage, s.env.rootPages)
  | none =>
    match addTransRootPage calls.memory s.env.rootPages iTable 0 0 with
    | none => .error .nomem
    | some rootPages => .ok (⟨0, 0, false⟩, rootPages)

/-- The end of `sqlite3TransBtreeClearTable`. -/
def setDeleteAll (pRootPage : TransRootPage) : Rc × TransState Key :=
  if calls.counts then
    let added := addHistory calls.history s (historyTableClear iTable pRootPage.deleteAll)
    if added.1 = .ok then
      (.ok, { added.2 with
        env.rootPages := update s.env.rootPages iTable
          (some { pRootPage with deleteAll := true }) })
    else added
  else (.error, s)

/-- `sqlite3TransBtreeClearTable` -/
def sqlite3TransBtreeClearTable : Rc × TransState Key :=
  let locked := sqlite3rowlockIpcLockTableAndAddHistory cfg conn calls.lockHistory s iTable .writeEx
  if locked.1 = .ok then
    let query := rowlockLockRecordsQuery cfg conn calls locked.2.env.stores.rows iTable
    if query = .ok then
      match clearedRootPage calls locked.2 iTable with
      | .error rc => (rc, locked.2)
      | .ok (pRootPage, rootPages) =>
        setDeleteAll calls { locked.2 with env.rootPages := rootPages } iTable pRootPage
    else (query, locked.2)
  else locked

end

/-- What a transaction does with tables. -/
inductive TransCall (Key : Type) where
  | lockTable (iTable : RootPage) (eLock : TableLock) (memory : Bool)
  | cursor (iTable : RootPage) (wrFlag : Bool) (calls : CreateCalls)
  | clearTable (iTable : RootPage) (calls : ClearCalls)
  /-- A row operation with its locks and records. -/
  | row (records : List (RowRecord Key)) (rows : RowArea) (indexes : PsmList Key)

/-- The answer and the effect of a call. -/
def TransCall.perform (s : TransState Key) : TransCall Key → Rc × TransState Key
  | .lockTable iTable eLock memory =>
    sqlite3rowlockIpcLockTableAndAddHistory cfg conn memory s iTable eLock
  | .cursor iTable wrFlag calls => transBtreeCursor calls s iTable wrFlag
  | .clearTable iTable calls => sqlite3TransBtreeClearTable cfg conn calls s iTable
  | .row records rows indexes =>
    (.ok, { s with
      env.stores.rows := rows
      env.stores.indexes := indexes
      lockSavepoint.pHistory := records.map RowRecord.history ++ s.lockSavepoint.pHistory })

/-- The state after a call. -/
def transStep (s : TransState Key) (call : TransCall Key) : TransState Key :=
  (call.perform cfg conn s).2

/-- `rowlockSavepointRollbackTableLock` -/
def rowlockSavepointRollbackTableLock (tables : TableArea) (iTable : RootPage) (prevLock : Nat) :
    TableArea :=
  (sqlite3rowlockIpcLockTable cfg.table conn.1 tables iTable.1 (.ofNumber prevLock) .force).2.1

/-- The switch of `rowlockSavepoint`. `RLH_NEW_TABLE` goes on into `RLH_TABLE_LOCK`. -/
def undoHistory (env : TransEnv Key) (history : RowLockHistory Key) : TransEnv Key :=
  match history.type with
  | .record =>
    { env with
      stores.rows :=
        sqlite3rowlockIpcUnlockRecord cfg.row env.stores.rows history.iTable.1 history.n }
  | .index =>
    match history.p with
    | none => env
    | some key =>
      { env with
        stores.indexes :=
          sqlite3rowlockPsmUnlockRecord cfg.record env.stores.indexes history.iTable key }
  | .newIndex =>
    { env with stores.indexes := sqlite3rowlockPsmDropTable env.stores.indexes history.iTable }
  | .newTable =>
    { env with
      rootPages := update env.rootPages history.iTable none
      stores.tables := rowlockSavepointRollbackTableLock cfg conn env.stores.tables
        history.iTable history.prev }
  | .tableLock =>
    { env with
      stores.tables := rowlockSavepointRollbackTableLock cfg conn env.stores.tables
        history.iTable history.prev }
  | .tableClear =>
    match env.rootPages history.iTable with
    | none => env
    | some pRootPage =>
      { env with
        rootPages := update env.rootPages history.iTable
          (some { pRootPage with deleteAll := decide (history.prev ≠ 0) }) }

/-- `sqlite3TransBtreeSavepointCreate` -/
def savepointCreate (s : TransState Key) (iSavepoint : Int) : TransState Key :=
  { s with lockSavepoint := rowlockSavepointCreate s.lockSavepoint iSavepoint }

/-- `sqlite3TransBtreeSavepoint`, without the trees themselves. -/
def sqlite3TransBtreeSavepoint (s : TransState Key) (op : SavepointOp) (iSavepoint : Int) :
    TransState Key :=
  let ended := rowlockSavepoint (undoHistory cfg conn) s.lockSavepoint op iSavepoint s.env
  { s with lockSavepoint := ended.1, env := ended.2 }

end

end SQLumDash.Savepoint
