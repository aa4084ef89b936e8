import SQLumDash.Change.Counts
import SQLumDash.Savepoint.FailedCalls
import SQLumDash.Trans.CommitOrder

/-!
# The calls behind the steps of the system

A row operation of the system is the call of `Savepoint.RowCalls` on its locks and its history, and
the one of `Change.Rows` on its trees. The system keeps the records of rows and index records only:
the undo of any other leaves its locks alone.
-/

namespace SQLumDash.Trans

open Ipc Psm Savepoint
open Change (TableTrees RowCursor)
open Std (ExtTreeMap)

variable {Record Data : Type} {layout : Layout Record} {s : System layout Data}
  {locks : Locks layout.lock} {env : TransEnv Record} {now : TransState Record}

/-- The shared memory has these locks. -/
structure Locks.In (locks : Locks layout.lock) (stores : Stores Record) : Prop where
  rows : stores.rows = locks.rows.area
  indexes : stores.indexes = locks.records.pList

/-- A record of the history, as the system keeps it. -/
def rowRecord (history : RowLockHistory Record) : Option (RowRecord Record) :=
  match history.type with
  | .record => some (.record history.iTable history.n)
  | .index => history.p.map (.index history.iTable)
  | _ => none

/-- The undo of one record. -/
theorem Locks.In.undo (conn : Conn) (shown : locks.In env.stores)
    (history : RowLockHistory Record) :
    ((rowRecord history).elim locks (System.undoRecord locks)).In
      (undoHistory layout.lock conn env history).stores := by
  obtain ⟨rows, indexes⟩ := shown
  obtain ⟨type, iTable, n, p, prev⟩ := history
  cases type with
  | record => exact ⟨congrArg (sqlite3rowlockIpcUnlockRecord _ · _ _) rows, indexes⟩
  | index =>
    cases p with
    | none => exact ⟨rows, indexes⟩
    | some key => exact ⟨rows, congrArg (sqlite3rowlockPsmUnlockRecord _ · _ _) indexes⟩
  | newIndex => exact ⟨rows, (dropTable_eq _ _).trans indexes⟩
  | newTable | tableLock => exact ⟨rows, indexes⟩
  | tableClear =>
    unfold undoHistory
    dsimp only
    split <;> exact ⟨rows, indexes⟩

/-- The undo of a history is the undo of the records that the system keeps. -/
theorem Locks.In.undone (conn : Conn) (shown : locks.In env.stores)
    (newer : List (RowLockHistory Record)) :
    ((newer.filterMap rowRecord).foldl System.undoRecord locks).In
      (newer.foldl (undoHistory layout.lock conn) env).stores := by
  induction newer generalizing locks env with
  | nil => exact shown
  | cons history rest ih =>
    have step := ih (shown.undo conn history)
    rw [List.filterMap_cons, List.foldl_cons]
    cases record : rowRecord history with
    | none | some record =>
      rw [record] at step
      exact step

/-- The transaction of a connection has the locks and the history that the system has. -/
structure Shows (s : System layout Data) (conn : Conn) (now : TransState Record) : Prop where
  locks : s.locks.In now.env.stores
  history : now.lockSavepoint.pHistory.filterMap rowRecord = (s.trans conn).history

/-- The trees are no part of the history. -/
theorem Shows.setTrees {conn : Conn} (shows : Shows s conn now) {trees : Trees layout Data} :
    now.lockSavepoint.pHistory.filterMap rowRecord =
      ((s.setTrans conn locks { s.trans conn with trees := trees }).trans conn).history := by
  rw [System.setTrans_self]
  exact shows.history

/-- Both answer the same, and the transaction shows the system afterwards. -/
def Agree (conn : Conn) (step : Rc × System layout Data) (call : Rc × TransState Record) : Prop :=
  call.1 = step.1 ∧ Shows step.2 conn call.2

section Requests

variable {conn : Conn} (trees : Trees layout Data) (refusal : Rc → Rc) (calls : RowCalls)
  (iTable : RootPage)

/-- What follows a lock request. -/
theorem agree_afterLock {answer : Rc × Locks layout.lock} (record : RowRecord Record)
    (shown : answer.2.In now.env.stores) (refused : answer.1 ≠ .ok → s.locks.In now.env.stores)
    (history : now.lockSavepoint.pHistory.filterMap rowRecord = (s.trans conn).history) :
    Agree conn (s.afterLock conn answer record trees refusal)
      (afterRequest true answer.1 refusal record now) := by
  rcases s.afterLock_cases conn answer record trees refusal with
    ⟨ok, eq⟩ | ⟨done, eq⟩ | ⟨notOk, notDone, eq⟩
  · rw [eq, ok]
    refine ⟨rfl, shown, ?_⟩
    rw [System.setTrans_self, ← show _ = Transaction.history _ from history]
    cases record <;> rfl
  · rw [eq, done]
    refine ⟨rfl, shown, ?_⟩
    rwa [System.setTrans_self]
  · rw [eq]
    refine ⟨?_, ?_⟩
    · unfold afterRequest
      split <;> first | rfl | contradiction
    · rw [afterRequest_refused notOk]
      exact ⟨refused notOk, history⟩

variable (shows : Shows s conn now) (memory : calls.history = true)

include shows memory

/-- The request for a row lock. -/
theorem agree_lockRow (rowid : Int) :
    Agree conn (s.afterLock conn (s.lockRow conn iTable rowid) (.record iTable rowid) trees refusal)
      (RowTarget.lock layout.lock conn calls refusal now (.table iTable rowid)) := by
  unfold RowTarget.lock
  rw [memory, shows.locks.rows]
  refine agree_afterLock trees refusal _ ⟨rfl, shows.locks.indexes⟩ (fun refused => ?_)
    shows.history
  exact ⟨lockRecord_unchanged s.locks.rows.lawful refused, shows.locks.indexes⟩

/-- The request for an index lock. -/
theorem agree_lockIndex (key : Record) :
    Agree conn (s.afterLock conn (s.lockIndex conn calls.psm iTable key) (.index iTable key) trees
        indexRefusal)
      (RowTarget.lock layout.lock conn calls refusal now (.unique iTable key)) := by
  unfold RowTarget.lock
  rw [memory, shows.locks.indexes]
  refine agree_afterLock trees _ _ ⟨shows.locks.rows, rfl⟩ (fun refused => ?_) shows.history
  exact ⟨shows.locks.rows, psmLockRecord_unchanged s.locks.records.lawful refused⟩

end Requests

section Operations

variable {conn : Conn} {iTable : RootPage} (generated transIsUsed inDel : Bool) (psm : PsmAlloc)

/-- A row operation on a cursor of the transaction, with calls that succeed. -/
def succeeding : RowCalls := ⟨true, true, false, generated, transIsUsed, inDel, psm, true, true⟩

/-- The trees are written. -/
theorem Agree.written {step : Rc × System layout Data} {locked : Rc × TransState Record}
    (agree : Agree conn step locked) :
    Agree conn step (if locked.1 = .ok then
      writeTrees (succeeding generated transIsUsed inDel psm) locked.2 else locked) := by
  obtain ⟨rc, now⟩ := locked
  cases rc <;> exact agree

variable (shows : Shows s conn now)

include shows

/-- An insertion into a table. -/
theorem agree_insertTable (append shared : Bool) (rowid : Int) (data : Data) :
    Agree conn (s.sqlite3TransBtreeInsertTable conn iTable append shared generated rowid data)
      (sqlite3TransBtreeInsert layout.lock conn (succeeding generated transIsUsed inDel psm) now
        (.table iTable rowid)) :=
  (agree_lockRow _ _ _ iTable shows rfl rowid).written ..

/-- An insertion into a unique index. -/
theorem agree_insertIndex (append shared : Bool) (key : Record) :
    Agree conn (s.sqlite3TransBtreeInsertIndex conn psm iTable append shared key)
      (sqlite3TransBtreeInsert layout.lock conn (succeeding generated transIsUsed inDel psm) now
        (.unique iTable key)) :=
  (agree_lockIndex _ (rowRefusal generated) _ iTable shows rfl key).written ..

/-- A deletion from a table. -/
theorem agree_deleteTable (rowid : Int) :
    Agree conn (s.sqlite3TransBtreeDeleteTable conn iTable transIsUsed rowid)
      (sqlite3TransBtreeDelete layout.lock conn (succeeding generated transIsUsed
        (((s.trans conn).trees.tables iTable).del.contains rowid) psm) now (.table iTable rowid)) := by
  cases transIsUsed with
  | false => exact (agree_lockRow _ _ _ iTable shows rfl rowid).written ..
  | true =>
    cases deleted : ((s.trans conn).trees.tables iTable).del.contains rowid with
    | true =>
      rw [System.sqlite3TransBtreeDeleteTable, if_pos rfl, if_pos deleted]
      exact ⟨rfl, shows.locks, shows.setTrees⟩
    | false =>
      rw [System.sqlite3TransBtreeDeleteTable, if_pos rfl, if_neg (deleted ▸ Bool.false_ne_true)]
      refine ⟨rfl, ⟨?_, shows.locks.indexes⟩, shows.setTrees⟩
      exact congrArg (sqlite3rowlockIpcUnlockRecord _ · _ _) shows.locks.rows

/-- A deletion from a unique index. -/
theorem agree_deleteIndex (key : Record) :
    Agree conn (s.sqlite3TransBtreeDeleteIndex conn psm iTable transIsUsed key)
      (sqlite3TransBtreeDelete layout.lock conn (succeeding generated transIsUsed inDel psm) now
        (.unique iTable key)) := by
  cases transIsUsed with
  | false => exact (agree_lockIndex _ _ _ iTable shows rfl key).written ..
  | true =>
    refine ⟨rfl, ⟨shows.locks.rows, ?_⟩, shows.setTrees⟩
    exact congrArg (sqlite3rowlockPsmUnlockRecord _ · _ _) shows.locks.indexes

end Operations

section Trees

variable {t : TableTrees Int Data} {shared : ExtTreeMap Int Data}
  {pending : Pending Int Data compare}

/-- The trees of a table, as `Change.Rows` has them. -/
structure Pending.Of (pending : Pending Int Data compare) (shared : ExtTreeMap Int Data)
    (t : TableTrees Int Data) : Prop where
  shared : ∀ row, row ∈ shared ↔ row ∈ t.shared
  ins : ∀ row, pending.ins[row]? = if row ∈ t.ins then some (t.insData row) else none
  del : ∀ row, row ∈ pending.del ↔ row ∈ t.del

/-- An insertion writes the same rows. -/
theorem Pending.Of.insert (same : pending.Of shared t) (moveto : Scan.MovetoUnpacked Int)
    (c : RowCursor Int) (rowid : Int) (data : Data) (append : Bool) (seekResult : Int) :
    (pending.insert (!(append || seekResult != 0) && c.sharedIsUsed && shared.contains rowid) rowid
      data).Of shared
        (Change.sqlite3TransBtreeInsert moveto t c rowid data append seekResult).1 := by
  have replaces : (!(append || seekResult != 0) && c.sharedIsUsed && shared.contains rowid) = true ↔
      Change.ReplacesShared t c rowid append seekResult := by
    simp [Change.ReplacesShared, ← same.shared, ExtTreeMap.contains_iff_mem, and_assoc]
  rw [Change.sqlite3TransBtreeInsert_trees]
  refine ⟨same.shared, fun row => ?_, fun row => ?_⟩
  · rw [Pending.insert, ExtTreeMap.getElem?_insert, ite_compare, same.ins]
    by_cases here : row = rowid
    · simp [here]
    · simp [here, Ne.symm here]
  · rw [Pending.mem_insert_del, replaces, compare_eq_iff_eq, same.del]
    split_ifs with update
    · simp [update, eq_comm]
    · simp [update]

/-- A deletion takes the same row back or notes it. -/
theorem Pending.Of.delete (same : pending.Of shared t) (vendored : Change.Vendored Int)
    {c : RowCursor Int} {rowid : Int}
    (stands : if c.transIsUsed then c.pCurIns = .valid rowid else c.pCur = some rowid) :
    (if c.transIsUsed then pending.takeBack rowid else pending.delete rowid).Of shared
      (Change.sqlite3TransBtreeDelete vendored t c).1 := by
  unfold Change.sqlite3TransBtreeDelete
  split_ifs at stands ⊢
  · rw [stands]
    refine ⟨same.shared, fun row => ?_, same.del⟩
    rw [Pending.takeBack, ExtTreeMap.getElem?_erase, ite_compare, same.ins]
    by_cases here : row = rowid
    · simp [here]
    · simp [here, Ne.symm here]
  · rw [stands]
    refine ⟨same.shared, same.ins, fun row => ?_⟩
    rw [Pending.mem_delete_del, compare_eq_iff_eq, same.del, Finset.mem_insert, eq_comm]

end Trees

end SQLumDash.Trans
