import SQLumDash.Savepoint.TableLevels

/-!
# Row operations inside a statement

An insertion or a deletion saves and searches cursors, takes the lock and records it, and then
writes the trees. An error after the lock is granted leaves it to the rollback of the statement,
which knows it only from the history.
-/

namespace SQLumDash.Savepoint

open Ipc Psm Runs

variable {Key : Type}

/-- What a row operation is about. -/
inductive RowTarget (Key : Type) where
  /-- A row of a table with rowids. -/
  | table (iTable : RootPage) (rowid : Int)
  /-- A record of a unique index or of a table without rowids. -/
  | unique (iTable : RootPage) (key : Key)
  /-- Another index, with the number that its cursor reports as its integer key. -/
  | index (iTable : RootPage) (nKey : Int)

/-- The inputs of an insertion or a deletion. -/
structure RowCalls where
  pCurIns : Bool
  /-- What comes before the lock request succeeds. -/
  before : Bool
  /-- The table is `sqlite_sequence`. -/
  sequence : Bool
  generated : Bool
  transIsUsed : Bool
  /-- The deletion tree has the rowid. -/
  inDel : Bool
  psm : PsmAlloc
  /-- Memory for the record of the lock. -/
  history : Bool
  /-- The trees are written. -/
  trees : Bool

/-- `SQLITE_LOCKED` on a row: a generated rowid is to be generated again. -/
def rowRefusal (generated : Bool) : Rc → Rc
  | .locked => if generated then .corruptRowid else .locked
  | rc => rc

/-- `SQLITE_LOCKED` on an index record. -/
def indexRefusal : Rc → Rc
  | .locked => .constraint
  | rc => rc

/-- A new lock is recorded, one that the connection had is not, and any other answer is an error. -/
def afterRequest (history : Bool) (answer : Rc) (refusal : Rc → Rc) (record : RowRecord Key)
    (s : TransState Key) : Rc × TransState Key :=
  match answer with
  | .ok => addHistory history s record.history
  | .done => (.ok, s)
  | rc => (refusal rc, s)

section

variable (cfg : Config Key) (conn : Conn)

/-- The lock request of an operation. -/
def RowTarget.lock (calls : RowCalls) (refusal : Rc → Rc) (s : TransState Key) :
    RowTarget Key → Rc × TransState Key
  | .table iTable rowid =>
    let request := sqlite3rowlockIpcLockRecord cfg.row conn.1 s.env.stores.rows iTable.1 rowid
    afterRequest calls.history request.1 refusal (.record iTable rowid)
      { s with env.stores.rows := request.2 }
  | .unique iTable key =>
    let request :=
      sqlite3rowlockPsmLockRecord cfg.record calls.psm conn.1 s.env.stores.indexes iTable key
    afterRequest calls.history request.1 indexRefusal (.index iTable key)
      { s with env.stores.indexes := request.2 }
  | .index _ _ => (.ok, s)

section

variable (calls : RowCalls) (s : TransState Key)

/-- The lock given up with a row that is taken back. -/
def RowTarget.unlock : RowTarget Key → TransState Key
  | .unique iTable key =>
    { s with
      env.stores.indexes :=
        sqlite3rowlockPsmUnlockRecord cfg.record s.env.stores.indexes iTable key }
  | .table iTable rowid | .index iTable rowid =>
    -- A record of an index without locks takes the branch of the rows.
    if calls.inDel then s
    else
      { s with
        env.stores.rows :=
          sqlite3rowlockIpcUnlockRecord cfg.row s.env.stores.rows iTable.1 rowid }

/-- An insertion into `sqlite_sequence` takes no lock. -/
def RowTarget.exempt (sequence : Bool) : RowTarget Key → Bool
  | .table _ _ => sequence
  | _ => false

/-- The writes to the trees. -/
def writeTrees : Rc × TransState Key :=
  (if calls.trees then .ok else .error, s)

/-- `sqlite3TransBtreeInsert`, without the trees themselves. -/
def sqlite3TransBtreeInsert (target : RowTarget Key) : Rc × TransState Key :=
  if calls.pCurIns then
    if calls.before then
      let locked := if target.exempt calls.sequence then (.ok, s)
        else target.lock cfg conn calls (rowRefusal calls.generated) s
      if locked.1 = .ok then writeTrees calls locked.2 else locked
    else (.error, s)
  else writeTrees calls s

/-- `sqlite3TransBtreeDelete`, without the trees themselves. -/
def sqlite3TransBtreeDelete (target : RowTarget Key) : Rc × TransState Key :=
  if calls.pCurIns then
    if calls.before then
      if calls.transIsUsed then writeTrees calls (target.unlock cfg calls s)
      else
        let locked := target.lock cfg conn calls id s
        if locked.1 = .ok then writeTrees calls locked.2 else locked
    else (.error, s)
  else writeTrees calls s

end

/-- What a statement does with locks. -/
inductive StmtCall (Key : Type) where
  /-- `sqlite3TransBtreeInsert` -/
  | insert (target : RowTarget Key) (calls : RowCalls)
  /-- `sqlite3TransBtreeDelete` -/
  | delete (target : RowTarget Key) (calls : RowCalls)
  /-- `sqlite3rowlockIpcLockTableAndAddHistory` -/
  | lockTable (iTable : RootPage) (eLock : TableLock) (memory : Bool)
  /-- `transBtreeCursor` -/
  | cursor (iTable : RootPage) (wrFlag : Bool) (calls : CreateCalls)
  /-- `sqlite3TransBtreeClearTable` -/
  | clearTable (iTable : RootPage) (calls : ClearCalls)

/-- The answer and the effect of a call. -/
def StmtCall.perform (s : TransState Key) : StmtCall Key → Rc × TransState Key
  | .insert target calls => sqlite3TransBtreeInsert cfg conn calls s target
  | .delete target calls => sqlite3TransBtreeDelete cfg conn calls s target
  | .lockTable iTable eLock memory =>
    sqlite3rowlockIpcLockTableAndAddHistory cfg conn memory s iTable eLock
  | .cursor iTable wrFlag calls => transBtreeCursor calls s iTable wrFlag
  | .clearTable iTable calls => sqlite3TransBtreeClearTable cfg conn calls s iTable

/-- The state after a call. -/
def stmtStep (s : TransState Key) (call : StmtCall Key) : TransState Key :=
  (call.perform cfg conn s).2

end

end SQLumDash.Savepoint
