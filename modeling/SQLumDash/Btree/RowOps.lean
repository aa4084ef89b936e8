import SQLumDash.Lib.Traced
import SQLumDash.Savepoint.RowCalls

/-!
# The calls of row operations

`sqlite3TransBtreeInsert`, `sqlite3TransBtreeDelete` and the replay at commit, by the calls that
they make. They choose by the key info of the cursor and by the type that the schema gives to its
root page. What a call answers is up to the environment.
-/

namespace SQLumDash.Btree

open Traced
open Savepoint

/-- The types of `rowlockJudgeTableType`. -/
inductive TableType where
  /-- `TABLE_NORMAL` -/
  | tableNormal
  /-- `TABLE_SEQUENCE` -/
  | tableSequence
  /-- `INDEX_NORMAL` -/
  | indexNormal
  /-- `INDEX_UNIQUE`, also a table without rowids. -/
  | indexUnique
deriving DecidableEq, Repr

/-- What root pages are roots of. -/
structure Schema where
  /-- Cursors on the tree have key info. -/
  isIndex : RootPage → Bool
  /-- An index that is being created counts as a table. -/
  rowlockJudgeTableType : RootPage → TableType

/-- The tree of a table or index that a cursor is on. -/
inductive Tree where
  /-- `pCur` -/
  | shared
  /-- `pCurIns` -/
  | ins
  /-- `pCurDel` -/
  | del
deriving DecidableEq, Repr

/-- `BtCursor`, as a call of the b-tree sees it. -/
structure BtCursor where
  pgnoRoot : RootPage
  tree : Tree
  /-- `pKeyInfo` is not null. -/
  pKeyInfo : Bool
deriving DecidableEq, Repr

/-- `BtreePayload`, without the data of a row. -/
structure BtreePayload (Key : Type) where
  pKey : Option Key
  /-- The rowid, or the size of the record. -/
  nKey : Int
deriving DecidableEq, Repr

/-- `UnpackedRecord` -/
structure UnpackedRecord (Key : Type) where
  pKey : Option Key
  keyFields : Bool
deriving DecidableEq, Repr

/-- What the functions call. -/
inductive Call (Key : Type) where
  /-- `saveAllCursors` -/
  | saveAllCursors (pgnoRoot : RootPage)
  /-- `sqlite3VdbeAllocUnpackedRecord` -/
  | allocUnpackedRecord (cursor : BtCursor)
  /-- `sqlite3VdbeRecordUnpack`; no field is an error. -/
  | recordUnpack (cursor : BtCursor) (pKey : Option Key)
  /-- `sqlite3BtreeMovetoUnpacked` -/
  | movetoUnpacked (cursor : BtCursor) (pIdxKey : Option (UnpackedRecord Key)) (nKey : Int)
  /-- `sqlite3BtreeIntegerKey` -/
  | integerKey (cursor : BtCursor)
  /-- `sqlite3BtreePayloadSize` -/
  | payloadSize (cursor : BtCursor)
  /-- `sqlite3Realloc` -/
  | realloc (size : Int)
  /-- `sqlite3BtreePayload` -/
  | payload (cursor : BtCursor)
  /-- `sqlite3BtreeInsert` -/
  | insert (cursor : BtCursor) (pX : BtreePayload Key) (append : Bool)
  /-- `sqlite3BtreeDelete` -/
  | delete (cursor : BtCursor)
  /-- `sqlite3BtreeFirst` -/
  | first (cursor : BtCursor)
  /-- `sqlite3BtreeNext` -/
  | next (cursor : BtCursor)
  /-- `sqlite3BtreeClearTableOfCursor` -/
  | clearTableOfCursor (cursor : BtCursor)
  /-- `sqlite3BtreeLockTable` -/
  | lockTable (iTable : RootPage)
  /-- `sqlite3BtreeCursorAll` -/
  | openCursor (cursor : BtCursor)
  /-- `invalidateIncrblobCursors` -/
  | invalidateIncrblobCursors (pgnoRoot : RootPage) (rowid : Int)
  /-- `sqlite3rowlockIpcLockRecord` -/
  | ipcLockRecord (iTable : RootPage) (rowid : Int)
  /-- `sqlite3rowlockIpcUnlockRecord` -/
  | ipcUnlockRecord (iTable : RootPage) (rowid : Int)
  /-- `sqlite3rowlockPsmLockRecord` -/
  | psmLockRecord (iTable : RootPage) (pKey : Option Key)
  /-- `sqlite3rowlockPsmUnlockRecord` -/
  | psmUnlockRecord (iTable : RootPage) (pKey : Option Key)
  /-- `sqlite3rowlockHistoryAddRecord` -/
  | historyAddRecord (iTable : RootPage) (rowid : Int)
  /-- `sqlite3rowlockHistoryAddIndex` -/
  | historyAddIndex (iTable : RootPage) (pKey : Option Key)
deriving DecidableEq, Repr

/-- What a call answers. -/
structure Answer (Key : Type) where
  rc : Rc
  /-- The position after a move, a key or a size. -/
  value : Int
  record : Key

variable {Key : Type}

/-- A function of the source. -/
abbrev Routine (Key α : Type) : Type := Traced (Call Key) Rc α

section

variable (env : Environment (Call Key) (Answer Key))

/-- A call whose error ends the function. -/
def attempt (call : Call Key) : Routine Key (Answer Key) := do
  let answer ← ask env call
  if answer.rc = .ok then pure answer else fail answer.rc

/-- Such a call, where only the code matters. -/
def perform (call : Call Key) : Routine Key Unit := do
  let _ ← attempt env call
  pure ()

/-- The unpacked record of a key. -/
def unpack (cursor : BtCursor) (pKey : Option Key) (keyFields : Bool) :
    Routine Key (UnpackedRecord Key) := do
  perform env (.allocUnpackedRecord cursor)
  perform env (.recordUnpack cursor pKey)
  pure ⟨pKey, keyFields⟩

/-- The unpacked key of a search, if it has one. -/
def unpackIf (condition : Bool) (cursor : BtCursor) (pKey : Option Key) (keyFields : Bool) :
    Routine Key (Option (UnpackedRecord Key)) :=
  if condition then do
    let pIdxKey ← unpack env cursor pKey keyFields
    pure (some pIdxKey)
  else pure none

/-- `btreeCursorMovetoKey` -/
def btreeCursorMovetoKey (cursor : BtCursor) (pKey : Option Key) (nKey : Int) :
    Routine Key Int := do
  let pIdxKey ← unpackIf env cursor.pKeyInfo cursor pKey true
  let answer ← attempt env (.movetoUnpacked cursor pIdxKey nKey)
  pure answer.value

/-- `btreeMoveto` of the b-tree, which looks at the key. -/
def btreeMoveto (cursor : BtCursor) (pKey : Option Key) (nKey : Int) : Routine Key Int := do
  let pIdxKey ← unpackIf env pKey.isSome cursor pKey false
  let answer ← attempt env (.movetoUnpacked cursor pIdxKey nKey)
  pure answer.value

/-- `btreePayloadWithMalloc`: the payload and its size. -/
def btreePayloadWithMalloc (cursor : BtCursor) : Routine Key (Key × Int) := do
  let size ← ask env (.payloadSize cursor)
  perform env (.realloc size.value)
  let answer ← attempt env (.payload cursor)
  pure (answer.record, size.value)

/-- A new lock is recorded, one that the connection has is not. -/
def requestLock (request record : Call Key) (refusal : Rc → Rc) : Routine Key Unit := do
  let answer ← ask env request
  match answer.rc with
  | .ok => perform env record
  | .done => pure ()
  | rc => fail (refusal rc)

/-- The request for an index lock. -/
def lockIndexRecord (iTable : RootPage) (pKey : Option Key) : Routine Key Unit :=
  requestLock env (.psmLockRecord iTable pKey) (.historyAddIndex iTable pKey) indexRefusal

/-- The request for a row lock. -/
def lockRow (iTable : RootPage) (rowid : Int) (refusal : Rc → Rc) : Routine Key Unit :=
  requestLock env (.ipcLockRecord iTable rowid) (.historyAddRecord iTable rowid) refusal

end

/-- A cursor with its `BtCursorTrans`. -/
structure TransCursor where
  pgnoRoot : RootPage
  /-- The transaction has cursors. -/
  pCurIns : Bool
  /-- `BTCF_Multiple` -/
  multiple : Bool
  /-- `cachedRowidFlagGet` -/
  generated : Bool
  /-- `CURSOR_USE_SHARED` -/
  sharedIsUsed : Bool
  /-- `CURSOR_USE_TRANS` -/
  transIsUsed : Bool
deriving DecidableEq, Repr

section

variable (schema : Schema) (env : Environment (Call Key) (Answer Key))

/-- The cursor on one of the trees. -/
def TransCursor.on (cursor : TransCursor) (tree : Tree) : BtCursor :=
  ⟨cursor.pgnoRoot, tree, schema.isIndex cursor.pgnoRoot⟩

/-- `rowlockIsUniqueIndex` -/
def TransCursor.rowlockIsUniqueIndex (cursor : TransCursor) : Bool :=
  schema.rowlockJudgeTableType cursor.pgnoRoot == .indexUnique

/-- `rowlockIsSequenceTable` -/
def TransCursor.rowlockIsSequenceTable (cursor : TransCursor) : Bool :=
  schema.rowlockJudgeTableType cursor.pgnoRoot == .tableSequence

/-- A rowid for a table, a record for an index. -/
def TransCursor.payload (cursor : TransCursor) (nKey : Int) (record : Key) : BtreePayload Key :=
  ⟨if schema.isIndex cursor.pgnoRoot then some record else none, nKey⟩

/-- What an insertion finds out before it writes. -/
structure Found where
  isUpdate : Bool
  isTransUpdate : Bool
  /-- `btFlags` -/
  append : Bool

/-- The search in one tree, if the cursor uses it. -/
def searchIf (used : Bool) (cursor : BtCursor) (pX : BtreePayload Key) :
    Routine Key (Option Int) :=
  if used then do
    let res ← btreeCursorMovetoKey env cursor pX.pKey pX.nKey
    pure (some res)
  else pure none

/-- Whether an insertion is an update. -/
def searchCopies (cursor : TransCursor) (pX : BtreePayload Key) (append : Bool)
    (seekResult : Int) : Routine Key Found :=
  if !append && seekResult == 0 then do
    let shared ← searchIf env cursor.sharedIsUsed (cursor.on schema .shared) pX
    let trans ← searchIf env cursor.transIsUsed (cursor.on schema .ins) pX
    pure ⟨shared == some 0, trans == some 0, shared.isSome || trans.isSome⟩
  else pure ⟨false, false, append⟩

/-- The lock that an insertion takes. -/
def lockForInsert (cursor : TransCursor) (pX : BtreePayload Key) : Routine Key Unit :=
  if (cursor.on schema .shared).pKeyInfo then
    when (cursor.rowlockIsUniqueIndex schema) (lockIndexRecord env cursor.pgnoRoot pX.pKey)
  else
    when (!cursor.rowlockIsSequenceTable schema)
      (lockRow env cursor.pgnoRoot pX.nKey (rowRefusal cursor.generated))

/-- A row is written, and the cursor moved to it. -/
def writeCopy (cursor : BtCursor) (pX : BtreePayload Key) (append : Bool) : Routine Key Unit := do
  perform env (.insert cursor pX append)
  let _ ← btreeMoveto env cursor pX.pKey pX.nKey
  pure ()

section

variable (cursor : TransCursor)

/-- `sqlite3TransBtreeInsert` and the cursor afterwards. -/
def sqlite3TransBtreeInsert (pX : BtreePayload Key) (append : Bool) (seekResult : Int) :
    Routine Key TransCursor :=
  if cursor.pCurIns then do
    when cursor.multiple (perform env (.saveAllCursors cursor.pgnoRoot))
    let found ← searchCopies schema env cursor pX append seekResult
    lockForInsert schema env cursor pX
    when found.isUpdate (writeCopy env (cursor.on schema .del) pX false)
    writeCopy env (cursor.on schema .ins) pX found.append
    when (!found.isUpdate && !found.isTransUpdate) do
      let _ ← btreeMoveto env (cursor.on schema .shared) pX.pKey pX.nKey
      pure ()
    let _ ← ask env (.invalidateIncrblobCursors cursor.pgnoRoot pX.nKey)
    pure { cursor with sharedIsUsed := !found.isTransUpdate, transIsUsed := true }
  else do
    perform env (.insert (cursor.on schema .shared) pX append)
    pure cursor

/-- The lock that a deletion gives up. -/
def releaseInserted : Routine Key Unit :=
  if (cursor.on schema .shared).pKeyInfo && cursor.rowlockIsUniqueIndex schema then do
    let key ← btreePayloadWithMalloc env (cursor.on schema .ins)
    let _ ← ask env (.psmUnlockRecord cursor.pgnoRoot (some key.1))
    pure ()
  else do
    let nKey ← ask env (.integerKey (cursor.on schema .ins))
    let resDel ← attempt env (.movetoUnpacked (cursor.on schema .del) none nKey.value)
    when (resDel.value != 0) do
      let _ ← ask env (.ipcUnlockRecord cursor.pgnoRoot nKey.value)
      pure ()

/-- The deletion of a shared record. -/
def deleteSharedIndex : Routine Key Unit := do
  let key ← btreePayloadWithMalloc env (cursor.on schema .shared)
  when (cursor.rowlockIsUniqueIndex schema) (lockIndexRecord env cursor.pgnoRoot (some key.1))
  perform env (.insert (cursor.on schema .del) ⟨some key.1, key.2⟩ true)

/-- The deletion of a row of the shared tree of a table. -/
def deleteSharedRow : Routine Key Unit := do
  let nKey ← ask env (.integerKey (cursor.on schema .shared))
  lockRow env cursor.pgnoRoot nKey.value id
  perform env (.insert (cursor.on schema .del) ⟨none, nKey.value⟩ true)
  let _ ← ask env (.invalidateIncrblobCursors cursor.pgnoRoot nKey.value)
  pure ()

/-- `sqlite3TransBtreeDelete` after the cursors are saved. -/
def deleteSaved : Routine Key Unit :=
  if cursor.transIsUsed then do
    releaseInserted schema env cursor
    perform env (.delete (cursor.on schema .ins))
  else if (cursor.on schema .shared).pKeyInfo then deleteSharedIndex schema env cursor
  else deleteSharedRow schema env cursor

/-- `sqlite3TransBtreeDelete` -/
def sqlite3TransBtreeDelete : Routine Key Unit :=
  if cursor.pCurIns then do
    when cursor.multiple (perform env (.saveAllCursors cursor.pgnoRoot))
    deleteSaved schema env cursor
  else perform env (.delete (cursor.on schema .shared))

end

end

/-- An entry of `rootPages` at commit. -/
structure CommitTable where
  iTable : RootPage
  /-- Null after a deletion of all rows, also for an index. -/
  pKeyInfo : Bool
  deleteAll : Bool
  iDel : Nat
deriving DecidableEq, Repr

/-- The cursor on one of the trees. -/
def CommitTable.on (table : CommitTable) (tree : Tree) : BtCursor :=
  ⟨table.iTable, tree, table.pKeyInfo⟩

section

variable (env : Environment (Call Key) (Answer Key))

/-- What follows `sqlite3BtreeNext` in a loop. -/
def afterNext (rc : Rc) (loop : Routine Key Unit) : Routine Key Unit :=
  match rc with
  | .ok => loop
  | .done => pure ()
  | rc => fail rc

/-- The row of the insertion tree that is replayed. -/
def insertedRow (table : CommitTable) : Routine Key (BtreePayload Key) := do
  let key ← btreePayloadWithMalloc env (table.on .ins)
  if table.pKeyInfo then pure ⟨some key.1, key.2⟩
  else do
    let nKey ← ask env (.integerKey (table.on .ins))
    pure ⟨none, nKey.value⟩

/-- The loop of `transBtreeCommitTableInsert`. -/
def commitInsertLoop (table : CommitTable) : Nat → Routine Key Unit
  | 0 => pure ()
  | rows + 1 => do
    let pX ← insertedRow env table
    let res ← btreeMoveto env (table.on .shared) pX.pKey pX.nKey
    perform env (.insert (table.on .shared) pX (res != 0))
    let next ← ask env (.next (table.on .ins))
    afterNext next.rc (commitInsertLoop table rows)

/-- `transBtreeCommitTableInsert` -/
def transBtreeCommitTableInsert (rows : Nat) (table : CommitTable) : Routine Key Unit := do
  let first ← attempt env (.first (table.on .ins))
  when (first.value == 0) (commitInsertLoop env table rows)

/-- The row of the deletion tree that is replayed. -/
def deletedRow (table : CommitTable) : Routine Key (BtreePayload Key) :=
  if table.pKeyInfo then do
    let key ← btreePayloadWithMalloc env (table.on .del)
    pure ⟨some key.1, key.2⟩
  else do
    let nKey ← ask env (.integerKey (table.on .del))
    pure ⟨none, nKey.value⟩

/-- The loop of `transBtreeCommitTableDelete`. -/
def commitDeleteLoop (table : CommitTable) : Nat → Routine Key Unit
  | 0 => pure ()
  | rows + 1 => do
    let pX ← deletedRow env table
    let _ ← btreeCursorMovetoKey env (table.on .shared) pX.pKey pX.nKey
    perform env (.delete (table.on .shared))
    let next ← ask env (.next (table.on .del))
    afterNext next.rc (commitDeleteLoop table rows)

/-- `transBtreeCommitTableDelete` -/
def transBtreeCommitTableDelete (rows : Nat) (table : CommitTable) : Routine Key Unit :=
  if table.deleteAll then perform env (.clearTableOfCursor (table.on .shared))
  else if table.iDel == 0 then pure ()
  else do
    let first ← attempt env (.first (table.on .del))
    when (first.value == 0) (commitDeleteLoop env table rows)

/-- The replay of one table. -/
def commitTable (rows : Nat) (table : CommitTable) : Routine Key Unit := do
  perform env (.lockTable table.iTable)
  perform env (.openCursor (table.on .shared))
  transBtreeCommitTableDelete env rows table
  transBtreeCommitTableInsert env rows table

/-- The replay of `sqlite3TransBtreeCommit`. -/
def commitReplay (rows : Nat) (tables : List CommitTable) : Routine Key Unit :=
  each (commitTable env rows) tables

end

/-- What happens in a transaction. -/
inductive RowOp (Key : Type) where
  /-- A cursor is opened or moved, anywhere. -/
  | cursor (id : Nat) (opened : TransCursor)
  | insert (id : Nat) (nKey : Int) (record : Key) (append : Bool) (seekResult : Int)
  | delete (id : Nat)
  /-- The replay, up to a number of rows in every tree. -/
  | commit (rows : Nat) (tables : List CommitTable)

/-- The cursors, and the calls made so far. -/
structure Session (Key : Type) where
  cursors : Nat → TransCursor
  calls : List (Call Key)

section

variable (schema : Schema) (env : Environment (Call Key) (Answer Key))

/-- The operation, and the cursors it leaves. -/
def RowOp.perform (cursors : Nat → TransCursor) : RowOp Key → Routine Key (Nat → TransCursor)
  | .cursor id opened => pure (Function.update cursors id opened)
  | .insert id nKey record append seekResult => do
    let cursor := cursors id
    let moved ← sqlite3TransBtreeInsert schema env cursor (cursor.payload schema nKey record)
      append seekResult
    pure (Function.update cursors id moved)
  | .delete id => do
    sqlite3TransBtreeDelete schema env (cursors id)
    pure cursors
  | .commit rows tables => do
    commitReplay env rows tables
    pure cursors

/-- One that fails leaves the cursors. -/
def rowStep (s : Session Key) (op : RowOp Key) : Session Key :=
  let ran := op.perform schema env s.cursors s.calls
  ⟨match ran.1 with
    | .ok cursors => cursors
    | .error _ => s.cursors, s.calls ++ ran.2⟩

end

section Requests

/-- The code that a function returns. -/
def code : Except Rc Unit → Rc
  | .ok _ => .ok
  | .error rc => rc

/-- What a cursor locks. -/
def TransCursor.target (schema : Schema) (cursor : TransCursor) (nKey : Int) (key : Key) :
    RowTarget Key :=
  if schema.isIndex cursor.pgnoRoot then
    if cursor.rowlockIsUniqueIndex schema then .unique cursor.pgnoRoot key
    else .index cursor.pgnoRoot nKey
  else .table cursor.pgnoRoot nKey

variable (env : Environment (Call Key) (Answer Key)) (history : List (Call Key)) (cfg : Config Key)
  (conn : Conn) (calls : RowCalls) (s : TransState Key)

/-- The environment has the locks and the memory of a transaction. -/
structure Answers : Prop where
  row : ∀ iTable rowid, (env history (.ipcLockRecord iTable rowid)).rc =
    (Ipc.sqlite3rowlockIpcLockRecord cfg.row conn.1 s.env.stores.rows iTable.1 rowid).1
  index : ∀ iTable key, (env history (.psmLockRecord iTable (some key))).rc =
    (Psm.sqlite3rowlockPsmLockRecord cfg.record calls.psm conn.1 s.env.stores.indexes iTable key).1
  recordAdded : ∀ request iTable rowid,
    (env (history ++ [request]) (.historyAddRecord iTable rowid)).rc =
      if calls.history then .ok else .nomem
  indexAdded : ∀ request iTable key,
    (env (history ++ [request]) (.historyAddIndex iTable (some key))).rc =
      if calls.history then .ok else .nomem

variable {env history cfg conn calls s}

/-- A request and its record. -/
theorem requestLock_code {request added : Call Key} {memory : Bool}
    (answered : (env (history ++ [request]) added).rc = if memory then .ok else .nomem)
    (refusal : Rc → Rc) (record : RowRecord Key) (now : TransState Key) :
    code (requestLock env request added refusal history).1 =
      (afterRequest memory (env history request).rc refusal record now).1 := by
  unfold requestLock
  rw [bind_eq]
  simp only [ask]
  cases rc : (env history request).rc with
  | ok => cases memory <;> simp [perform, attempt, bind_eq, ask, answered] <;> rfl
  | _ => rfl

section

variable (answers : Answers env history cfg conn calls s)

include answers

/-- A row lock. -/
theorem lockRow_code (iTable : RootPage) (rowid : Int) (refusal : Rc → Rc) :
    code (lockRow env iTable rowid refusal history).1 =
      ((RowTarget.table iTable rowid).lock cfg conn calls refusal s).1 := by
  rw [lockRow, requestLock_code (answers.recordAdded ..), answers.row]
  rfl

/-- An index lock. -/
theorem lockIndexRecord_code (iTable : RootPage) (key : Key) (refusal : Rc → Rc) :
    code (lockIndexRecord env iTable (some key) history).1 =
      ((RowTarget.unique iTable key).lock cfg conn calls refusal s).1 := by
  rw [lockIndexRecord, requestLock_code (answers.indexAdded ..), answers.index]
  rfl

/-- The lock of an insertion. -/
theorem lockForInsert_code (schema : Schema) (cursor : TransCursor) (nKey : Int) (key : Key) :
    code (lockForInsert schema env cursor (cursor.payload schema nKey key) history).1 =
      let target := cursor.target schema nKey key
      if target.exempt (cursor.rowlockIsSequenceTable schema) then .ok
      else (target.lock cfg conn calls (rowRefusal cursor.generated) s).1 := by
  unfold lockForInsert TransCursor.target TransCursor.on TransCursor.payload
  cases schema.isIndex cursor.pgnoRoot with
  | true =>
    cases cursor.rowlockIsUniqueIndex schema with
    | true => exact lockIndexRecord_code answers ..
    | false => rfl
  | false =>
    cases cursor.rowlockIsSequenceTable schema with
    | true => rfl
    | false => exact lockRow_code answers ..

end

end Requests

end SQLumDash.Btree
