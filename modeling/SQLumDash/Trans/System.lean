import SQLumDash.Commit.CommitView
import SQLumDash.Savepoint.RowCalls

/-!
# Concurrent transactions

A transaction keeps an insertion and a deletion tree for each table and index, the history of its
locks, and its savepoints. Every step is one call of a connection. The memory that an index lock
needs may be missing, which is not always reported; calls into the b-tree layer and the history
succeed. A savepoint has the number of savepoints open before it.
-/

namespace SQLumDash.Trans

open Ipc Psm Savepoint Std Function

/-- The trees of a transaction for one table. -/
structure Pending (Key Data : Type) (cmp : Key → Key → Ordering) where
  ins : ExtTreeMap Key Data cmp
  del : ExtTreeMap Key Unit cmp

namespace Pending

variable {Key Data : Type} {cmp : Key → Key → Ordering} [TransCmp cmp]

/-- The trees of a table that is not written. -/
def empty : Pending Key Data cmp := ⟨∅, ∅⟩

/-- An update of a row of the shared tree deletes that row. -/
def insert (pending : Pending Key Data cmp) (isUpdate : Bool) (key : Key) (data : Data) :
    Pending Key Data cmp :=
  ⟨pending.ins.insert key data, if isUpdate then pending.del.insert key () else pending.del⟩

section

variable (pending : Pending Key Data cmp)

/-- A row of the insertion tree is taken back. -/
def takeBack (key : Key) : Pending Key Data cmp :=
  { pending with ins := pending.ins.erase key }

/-- A row of the shared tree is deleted. -/
def delete (key : Key) : Pending Key Data cmp :=
  { pending with del := pending.del.insert key () }

/-- What the transaction sees under a key. -/
def view (shared : ExtTreeMap Key Data cmp) (key : Key) : Option Data :=
  pending.ins[key]?.or (if key ∈ pending.del then none else shared[key]?)

/-- The key is in one of the two trees. -/
def Writes (key : Key) : Prop :=
  key ∈ pending.ins ∨ key ∈ pending.del

/-- The two loops of a commit on one table. -/
def replay (shared : ExtTreeMap Key Data cmp) : ExtTreeMap Key Data cmp :=
  match Commit.commitDeleteLoop (fun _ => none) 0 pending.del.keys shared with
  | .returns deleted =>
    (Commit.transBtreeCommitTableInsert (fun _ => none) 0 pending.ins.toList deleted.2).2
  | _ => shared

end

end Pending

/-- What the connections of a database agree on. -/
structure Layout (Record : Type) where
  lock : Config Record
  /-- The order of an index: by its key columns. -/
  cmp : RootPage → Record → Record → Ordering
  trans : ∀ t, TransCmp (cmp t)

variable {Record Data : Type}

instance (layout : Layout Record) (t : RootPage) : TransCmp (layout.cmp t) := layout.trans t

/-- The locks on rows and on index records. -/
structure Locks (cfg : Config Record) where
  rows : RowLockTable cfg.row
  records : IndexLockTable cfg.record

/-- The trees of a transaction. -/
structure Trees (layout : Layout Record) (Data : Type) where
  tables : RootPage → Pending Int Data compare
  indexes : (t : RootPage) → Pending Record Unit (layout.cmp t)

/-- A transaction of a connection. -/
structure Transaction (layout : Layout Record) (Data : Type) where
  trees : Trees layout Data
  lockSavepoint : RowLockSavepoint (RowRecord Record)
  /-- Newest first, with the trees at each. -/
  saved : List (Int × Trees layout Data)

/-- The shared trees, the locks and the transactions. -/
structure System (layout : Layout Record) (Data : Type) where
  tables : RootPage → ExtTreeMap Int Data
  indexes : (t : RootPage) → ExtTreeMap Record Unit (layout.cmp t)
  locks : Locks layout.lock
  trans : Conn → Transaction layout Data

variable {layout : Layout Record}

/-- A transaction that has not written. -/
def Transaction.idle : Transaction layout Data :=
  ⟨⟨fun _ => .empty, fun _ => .empty⟩, .closed, []⟩

/-- The system before the first transaction. -/
def System.init (tables : RootPage → ExtTreeMap Int Data)
    (indexes : (t : RootPage) → ExtTreeMap Record Unit (layout.cmp t)) : System layout Data :=
  ⟨tables, indexes, ⟨.init _, .init _⟩, fun _ => .idle⟩

/-- The trees with other trees for a table. -/
def Trees.setTable (trees : Trees layout Data) (iTable : RootPage)
    (pending : Pending Int Data compare) : Trees layout Data :=
  { trees with tables := update trees.tables iTable pending }

/-- The trees with other trees for an index. -/
def Trees.setIndex (trees : Trees layout Data) (iTable : RootPage)
    (pending : Pending Record Unit (layout.cmp iTable)) : Trees layout Data :=
  { trees with indexes := update trees.indexes iTable pending }

namespace System

variable (s : System layout Data) (conn : Conn)

/-- The system with another transaction of a connection. -/
def setTrans (locks : Locks layout.lock) (trans : Transaction layout Data) : System layout Data :=
  { s with locks := locks, trans := update s.trans conn trans }

/-- What follows a lock request: a new lock is recorded, one that the connection had is not, and any
other answer ends the call. -/
def afterLock (answer : Rc × Locks layout.lock) (record : RowRecord Record)
    (trees : Trees layout Data) (refusal : Rc → Rc) : Rc × System layout Data :=
  let trans := s.trans conn
  match answer.1 with
  | .ok =>
    (.ok, s.setTrans conn answer.2
      { trans with
        trees := trees
        lockSavepoint := (sqlite3rowlockHistoryAdd true trans.lockSavepoint record).2 })
  | .done => (.ok, s.setTrans conn answer.2 { trans with trees := trees })
  | rc => (refusal rc, s)

/-- The request for a row lock. -/
def lockRow (iTable : RootPage) (rowid : Int) : Rc × Locks layout.lock :=
  let request := s.locks.rows.lockRecord conn.1 iTable rowid
  (request.1, { s.locks with rows := request.2 })

/-- The request for the lock of an index record. -/
def lockIndex (alloc : PsmAlloc) (iTable : RootPage) (key : Record) : Rc × Locks layout.lock :=
  let request := s.locks.records.lockRecord conn.1 iTable key alloc
  (request.1, { s.locks with records := request.2 })

/-- `sqlite3TransBtreeInsert` on a table with rowids. The shared tree is searched unless the caller
knows that the row is new; `shared` is `CURSOR_USE_SHARED`. -/
def sqlite3TransBtreeInsertTable (iTable : RootPage) (append shared generated : Bool) (rowid : Int)
    (data : Data) : Rc × System layout Data :=
  let trees := (s.trans conn).trees
  let isUpdate := !append && shared && (s.tables iTable).contains rowid
  s.afterLock conn (s.lockRow conn iTable rowid) (.record iTable rowid)
    (trees.setTable iTable ((trees.tables iTable).insert isUpdate rowid data))
    (rowRefusal generated)

/-- `sqlite3TransBtreeDelete` on a table with rowids. A row of the insertion tree is taken back, and
unlocked unless the deletion tree has it too. -/
def sqlite3TransBtreeDeleteTable (iTable : RootPage) (transIsUsed : Bool) (rowid : Int) :
    Rc × System layout Data :=
  let trans := s.trans conn
  let pending := trans.trees.tables iTable
  if transIsUsed then
    let rows :=
      if pending.del.contains rowid then s.locks.rows else s.locks.rows.unlockRecord iTable rowid
    (.ok, s.setTrans conn { s.locks with rows := rows }
      { trans with trees := trans.trees.setTable iTable (pending.takeBack rowid) })
  else
    s.afterLock conn (s.lockRow conn iTable rowid) (.record iTable rowid)
      (trans.trees.setTable iTable (pending.delete rowid)) id

/-- `sqlite3TransBtreeInsert` on a unique index or a table without rowids. -/
def sqlite3TransBtreeInsertIndex (alloc : PsmAlloc) (iTable : RootPage) (append shared : Bool)
    (key : Record) : Rc × System layout Data :=
  let trees := (s.trans conn).trees
  let isUpdate := !append && shared && (s.indexes iTable).contains key
  s.afterLock conn (s.lockIndex conn alloc iTable key) (.index iTable key)
    (trees.setIndex iTable ((trees.indexes iTable).insert isUpdate key ())) indexRefusal

/-- `sqlite3TransBtreeDelete` on a unique index or a table without rowids. A record of the insertion
tree is taken back and unlocked. -/
def sqlite3TransBtreeDeleteIndex (alloc : PsmAlloc) (iTable : RootPage) (transIsUsed : Bool)
    (key : Record) : Rc × System layout Data :=
  let trans := s.trans conn
  let pending := trans.trees.indexes iTable
  if transIsUsed then
    (.ok, s.setTrans conn { s.locks with records := s.locks.records.unlockRecord iTable key }
      { trans with trees := trans.trees.setIndex iTable (pending.takeBack key) })
  else
    s.afterLock conn (s.lockIndex conn alloc iTable key) (.index iTable key)
      (trans.trees.setIndex iTable (pending.delete key)) indexRefusal

/-- The index space, as the first cursor makes it. -/
def createIndex (alloc : PsmAlloc) (iTable : RootPage) : System layout Data :=
  { s with locks := { s.locks with records := s.locks.records.createTable iTable alloc } }

/-- The undo of a record of the history. -/
def undoRecord (locks : Locks layout.lock) : RowRecord Record → Locks layout.lock
  | .record iTable rowid => { locks with rows := locks.rows.unlockRecord iTable rowid }
  | .index iTable key => { locks with records := locks.records.unlockRecord iTable key }

/-- A new savepoint. -/
def savepoint : System layout Data :=
  let trans := s.trans conn
  let iSavepoint : Int := trans.saved.length
  s.setTrans conn s.locks
    { trans with
      lockSavepoint := rowlockSavepointCreate trans.lockSavepoint iSavepoint
      saved := (iSavepoint, trans.trees) :: trans.saved }

/-- The trees at the topmost savepoint with the number, and those below. -/
def savedAt : List (Int × Trees layout Data) → Int →
    Option (Trees layout Data × List (Int × Trees layout Data))
  | [], _ => none
  | entry :: below, iSavepoint =>
    if entry.1 = iSavepoint then some (entry.2, below) else savedAt below iSavepoint

/-- `sqlite3TransBtreeSavepoint` -/
def sqlite3TransBtreeSavepoint (op : SavepointOp) (iSavepoint : Int) : System layout Data :=
  let trans := s.trans conn
  match savedAt trans.saved iSavepoint with
  | none => s
  | some (trees, below) =>
    let ended := rowlockSavepoint undoRecord trans.lockSavepoint op iSavepoint s.locks
    match op with
    | .rollback => s.setTrans conn ended.2 ⟨trees, ended.1, (iSavepoint, trees) :: below⟩
    | .release => s.setTrans conn ended.2 { trans with lockSavepoint := ended.1, saved := below }

/-- `sqlite3TransBtreeRollback` -/
def sqlite3TransBtreeRollback : System layout Data :=
  s.setTrans conn
    ⟨s.locks.rows.unlockRecordProc conn.1, s.locks.records.unlockRecordProc conn.1⟩ .idle

/-- `sqlite3TransBtreeCommit`, where the exclusive locks are granted. -/
def sqlite3TransBtreeCommit : System layout Data :=
  let trees := (s.trans conn).trees
  sqlite3TransBtreeRollback
    { s with
      tables := fun t => (trees.tables t).replay (s.tables t)
      indexes := fun t => (trees.indexes t).replay (s.indexes t) } conn

end System

/-- A step of the system. -/
inductive Action (Record Data : Type) where
  | insertTable (conn : Conn) (iTable : RootPage) (append shared generated : Bool) (rowid : Int)
      (data : Data)
  | deleteTable (conn : Conn) (iTable : RootPage) (transIsUsed : Bool) (rowid : Int)
  | insertIndex (conn : Conn) (alloc : PsmAlloc) (iTable : RootPage) (append shared : Bool)
      (key : Record)
  | deleteIndex (conn : Conn) (alloc : PsmAlloc) (iTable : RootPage) (transIsUsed : Bool)
      (key : Record)
  | createIndex (conn : Conn) (alloc : PsmAlloc) (iTable : RootPage)
  | savepoint (conn : Conn)
  | endSavepoint (conn : Conn) (op : SavepointOp) (iSavepoint : Int)
  | commit (conn : Conn)
  | rollback (conn : Conn)

/-- The connection that takes the step. -/
def Action.conn : Action Record Data → Conn
  | .insertTable conn .. => conn
  | .deleteTable conn .. => conn
  | .insertIndex conn .. => conn
  | .deleteIndex conn .. => conn
  | .createIndex conn .. => conn
  | .savepoint conn => conn
  | .endSavepoint conn .. => conn
  | .commit conn => conn
  | .rollback conn => conn

/-- The memory that a step finds for an index lock. -/
def Action.alloc : Action Record Data → PsmAlloc
  | .insertIndex _ alloc .. => alloc
  | .deleteIndex _ alloc .. => alloc
  | _ => .all

/-- The answer and the effect of a step. A deletion where the cursor does not stand is not made. -/
def Action.perform (s : System layout Data) : Action Record Data → Rc × System layout Data
  | .insertTable conn iTable append shared generated rowid data =>
    s.sqlite3TransBtreeInsertTable conn iTable append shared generated rowid data
  | .deleteTable conn iTable transIsUsed rowid =>
    let stands := if transIsUsed then ((s.trans conn).trees.tables iTable).ins.contains rowid
      else (s.tables iTable).contains rowid
    if stands then s.sqlite3TransBtreeDeleteTable conn iTable transIsUsed rowid else (.error, s)
  | .insertIndex conn alloc iTable append shared key =>
    s.sqlite3TransBtreeInsertIndex conn alloc iTable append shared key
  | .deleteIndex conn alloc iTable transIsUsed key =>
    -- The record under the cursor may differ from the key in other columns.
    let stands := if transIsUsed then ((s.trans conn).trees.indexes iTable).ins.getKey? key
      else (s.indexes iTable).getKey? key
    match stands with
    | some record => s.sqlite3TransBtreeDeleteIndex conn alloc iTable transIsUsed record
    | none => (.error, s)
  | .createIndex _ alloc iTable => (.ok, s.createIndex alloc iTable)
  | .savepoint conn => (.ok, s.savepoint conn)
  | .endSavepoint conn op iSavepoint => (.ok, s.sqlite3TransBtreeSavepoint conn op iSavepoint)
  | .commit conn => (.ok, s.sqlite3TransBtreeCommit conn)
  | .rollback conn => (.ok, s.sqlite3TransBtreeRollback conn)

/-- The state after a step. -/
def step (s : System layout Data) (action : Action Record Data) : System layout Data :=
  (action.perform s).2

end SQLumDash.Trans
