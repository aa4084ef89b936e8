import SQLumDash.Savepoint.RootPages

/-!
# Exclusive locks for a commit

Before the replay a commit asks for the write lock on the schema table and for the exclusive lock on
every table it takes for modified. When a request fails, the locks taken so far are to be set back.
-/

namespace SQLumDash.Commit

open Ipc Savepoint

/-- An error a storage or allocation call returned. -/
abbrev Failure := {rc : Rc // rc ≠ .ok}

/-- An element of `rootPages` with the rows of its trees. -/
structure TransTable (Key Data : Type) where
  iTable : RootPage
  notSchema : iTable.1 ≠ schemaRoot
  root : TransRootPage
  ins : List (Key × Data)
  del : List Key
  /-- Trees that do not exist have no rows. -/
  uncreated : root.iIns = 0 → ins = [] ∧ del = []

/-- `rootPages`, in the order of the hash. -/
abbrev RootPages (Key Data : Type) :=
  {tables : List (TransTable Key Data) // (tables.map TransTable.iTable).Nodup}

/-- `BtCursorTrans`: the trees and the cursor's own flag. -/
structure BtCursorTrans (Key Data : Type) where
  pCurIns : List (Key × Data)
  pCurDel : List Key
  deleteAll : Bool

/-- What can fail while a table is looked at. -/
structure TableFault where
  /-- `sqlite3BtreeCursorAll` -/
  cursor : Option Failure
  /-- `sqlite3BtreeFirst` on the insertion tree. -/
  firstIns : Option Failure
  /-- `sqlite3BtreeFirst` on the deletion tree. -/
  firstDel : Option Failure

/-- What can fail while the tables are locked. -/
structure LockFaults where
  pCur : Bool
  arrays : Bool
  table : RootPage → TableFault

variable {Key Data : Type}

/-- The cursor `sqlite3BtreeCursorAll` opens. Missing trees are created empty; the flag of the
cursor is not set. -/
def transBtreeCursor (table : TransTable Key Data) : BtCursorTrans Key Data :=
  ⟨table.ins, table.del, false⟩

/-- The call that opens it in the transaction leaves an entry with trees, and the same cursor. -/
theorem transBtreeCursor_opened {Record : Type} {calls : CreateCalls} {s : TransState Record}
    {wrFlag : Bool} (table : TransTable Key Data) (started : s.inTransaction = true)
    (entry : s.env.rootPages table.iTable = some table.root)
    (success : (Savepoint.transBtreeCursor calls s table.iTable wrFlag).1 = .ok) :
    ∃ table' : TransTable Key Data, table'.iTable = table.iTable ∧ table'.root.iIns ≠ 0 ∧
      (Savepoint.transBtreeCursor calls s table.iTable wrFlag).2.env.rootPages table.iTable =
        some table'.root ∧ transBtreeCursor table' = transBtreeCursor table := by
  by_cases missing : table.root.iIns = 0
  · have creates : Savepoint.transBtreeCursor calls s table.iTable wrFlag =
        sqlite3TransBtreeCreateTable calls s table.iTable := by
      simp [Savepoint.transBtreeCursor, table.notSchema, entry, missing, started]
    rw [creates] at success ⊢
    unfold sqlite3TransBtreeCreateTable at success ⊢
    simp only [started, if_true] at success ⊢
    obtain ⟨_, quiet⟩ := createIndexSpace_quiet calls started table.iTable
    split at success
    · next iIns iDel _ _ =>
      have exist : iIns.1 ≠ 0 := Nat.pos_iff_ne_zero.1 iIns.2
      split_ifs at success ⊢ with created
      · refine ⟨{ table with
          root := ⟨iIns.1, iDel.1, table.root.deleteAll⟩
          uncreated := fun none_ => absurd none_ exist }, rfl, exist, ?_, rfl⟩
        simp [associate, addTransRootPage, quiet.rootPages, entry, addHistory]
      · exact absurd success created
    · cases success
  · refine ⟨table, rfl, missing, ?_, rfl⟩
    simp [Savepoint.transBtreeCursor, table.notSchema, entry, missing]

/-- `isTableModified` -/
def isTableModified (pCurTrans : BtCursorTrans Key Data) (fault : TableFault) :
    Except Failure Bool :=
  if pCurTrans.deleteAll then .ok true
  else
    match fault.firstIns with
    | some failure => .error failure
    | none =>
      if pCurTrans.pCurIns.isEmpty then
        match fault.firstDel with
        | some failure => .error failure
        | none => .ok (!pCurTrans.pCurDel.isEmpty)
      else .ok true

/-- Open the cursor of a table and look whether it is modified. -/
def inspect (faults : LockFaults) (table : TransTable Key Data) : Except Failure Bool :=
  match (faults.table table.iTable).cursor with
  | some failure => .error failure
  | none => isTableModified (transBtreeCursor table) (faults.table table.iTable)

section

variable (cfg : TableConfig) (conn : Conn)

/-- The loop of `exclusiveLockTables`: answer, area, and the modified tables with their `prevLock`,
zero for a request that fails. -/
def lockTablesLoop (faults : LockFaults) :
    List (TransTable Key Data) → TableArea → Rc × TableArea × List (RootPage × TableLock)
  | [], area => (.ok, area, [])
  | table :: rest, area =>
    match inspect faults table with
    | .error failure => (failure.1, area, [])
    | .ok false => lockTablesLoop faults rest area
    | .ok true =>
      let request := sqlite3rowlockIpcLockTable cfg conn.1 area table.iTable.1 .exclsv .commit
      if request.1 = .ok then
        let later := lockTablesLoop faults rest request.2.1
        (later.1, later.2.1, (table.iTable, request.2.2.getD .notLocked) :: later.2.2)
      else
        (request.1, request.2.1, [(table.iTable, .notLocked)])

/-- One call of the undo, with its arguments as the source has them: `MODE_LOCK_FORCE` as the level
and the previous level as the mode. -/
def undoLock (area : TableArea) (undo : RootPage × TableLock) : TableArea :=
  (sqlite3rowlockIpcLockTable cfg conn.1 area undo.1.1 (.ofNumber modeLockForce)
    (.ofNumber undo.2.level)).2.1

/-- The schema table. -/
def schemaTable : RootPage := ⟨schemaRoot, by decide⟩

/-- The request for the schema table. -/
def lockMaster (area : TableArea) : Rc × TableArea × Option TableLock :=
  sqlite3rowlockIpcLockTable cfg conn.1 area schemaRoot .write .commit

/-- `exclusiveLockTables` -/
def exclusiveLockTables (faults : LockFaults) (tables : RootPages Key Data) (area : TableArea) :
    Rc × TableArea :=
  if faults.pCur then (.nomem, area)
  else if tables.1.isEmpty then (.ok, area)
  else
    let master := lockMaster cfg conn area
    if master.1 ≠ .ok then (master.1, master.2.1)
    else
      let prevLockMaster := master.2.2.getD .notLocked
      if faults.arrays then
        (.nomem, undoLock cfg conn master.2.1 (schemaTable, prevLockMaster))
      else
        let locked := lockTablesLoop cfg conn faults tables.1 master.2.1
        if locked.1 = .ok then (.ok, locked.2.1)
        else
          (locked.1, undoLock cfg conn (locked.2.2.foldl (undoLock cfg conn) locked.2.1)
            (schemaTable, prevLockMaster))

/-- Once the schema table is locked, the loop decides. -/
theorem exclusiveLockTables_eq {faults : LockFaults} {tables : RootPages Key Data}
    {area : TableArea} (alloc : faults.pCur = false) (present : tables.1 ≠ [])
    (master : (lockMaster cfg conn area).1 = .ok) (arrays : faults.arrays = false) :
    exclusiveLockTables cfg conn faults tables area =
      let locked := lockTablesLoop cfg conn faults tables.1 (lockMaster cfg conn area).2.1
      if locked.1 = .ok then (.ok, locked.2.1)
      else
        (locked.1, undoLock cfg conn (locked.2.2.foldl (undoLock cfg conn) locked.2.1)
          (schemaTable, (lockMaster cfg conn area).2.2.getD .notLocked)) := by
  have some_ : tables.1.isEmpty = false := by simpa using present
  unfold exclusiveLockTables
  rw [alloc, some_, arrays]
  simp only [Bool.false_eq_true, if_false, ne_eq, master, not_true_eq_false]

end

end SQLumDash.Commit
