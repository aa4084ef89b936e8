import SQLumDash.Savepoint.FailedCalls

/-!
# A table that could not be set up

`sqlite3TransBtreeCreateTable` acquires the transaction, two trees, the space of a unique index, its
record, the entry of `rootPages` and its record. Its failure label drops the two trees and nothing
else. A rollback does not know of an entry whose record failed, and the undo of `RLH_NEW_INDEX`
never takes an index out of the list.
-/

namespace SQLumDash.Savepoint

open Ipc Psm Function

/-- The steps of `sqlite3TransBtreeCreateTable` that can fail. -/
inductive FailurePoint where
  /-- `sqlite3TransBtreeBeginTrans` -/
  | begins
  /-- `sqlite3BtreeCreateTableOriginal` -/
  | trees
  /-- `sqlite3rowlockPsmCreateTable` -/
  | indexSpace
  /-- `sqlite3rowlockHistoryAddNewIndex` -/
  | indexHistory
  /-- `addTransRootPage` -/
  | memory
  /-- `sqlite3rowlockHistoryAddNewTable` -/
  | history
deriving DecidableEq, Repr

/-- The step comes after the index space. -/
def FailurePoint.late : FailurePoint → Bool
  | .begins | .trees | .indexSpace => false
  | .indexHistory | .memory | .history => true

variable {Key : Type} {cfg : Config Key} {conn : Conn} {calls : CreateCalls}
  {s s' : TransState Key} {iTable : RootPage} {iSavepoint : Int} {point : FailurePoint}
  {newer older : List (RowLockHistory Key)} {below : List RowLockSavepointEntry}
  {pList : PsmList Key} {rootPages : RootPages}

namespace CreateCalls

section

variable (calls : CreateCalls)

/-- The first step that fails, if one does. -/
def failurePoint (s : TransState Key) (iTable : RootPage) : Option FailurePoint :=
  if s.inTransaction = false ∧ (calls.begins = false ∨ calls.savepoint = false) then some .begins
  else if calls.iInsTable = none ∨ calls.iDelTable = none then some .trees
  else if calls.unique = true ∧ iTable ∉ s.env.stores.indexes.tables ∧ calls.psm.data = false then
    some .indexSpace
  else if calls.unique = true ∧ calls.indexHistory = false then some .indexHistory
  else if s.env.rootPages iTable = none ∧ calls.memory = false then some .memory
  else if calls.history = false then some .history
  else none

/-- The call puts the index into the list. -/
def NewIndex (pList : PsmList Key) (iTable : RootPage) : Prop :=
  calls.unique = true ∧ iTable ∉ pList.tables ∧ calls.psm.data = true ∧
    calls.psm.insert.elem = true

/-- The entry is already that of the two trees. -/
def Named (rootPages : RootPages) (iTable : RootPage) : Prop :=
  ∃ entry, rootPages iTable = some entry ∧ calls.iInsTable.map Subtype.val = some entry.iIns ∧
    calls.iDelTable.map Subtype.val = some entry.iDel

/-- If a step after the index space fails, no index was put into the list, and if it is the last
one, the entry was that of the two trees before. -/
def Harmless (s : TransState Key) (iTable : RootPage) : Prop :=
  ∀ point, calls.failurePoint s iTable = some point →
    (point.late = true → ¬ calls.NewIndex s.env.stores.indexes iTable) ∧
      (point = .history → calls.Named s.env.rootPages iTable)

/-- The transaction, which the call begins if there is none. -/
def begun (s : TransState Key) : Rc × TransState Key :=
  if s.inTransaction then (.ok, s) else sqlite3TransBtreeBeginTrans calls s

/-- The list after the step for the index space. -/
def spaced (pList : PsmList Key) (iTable : RootPage) : PsmList Key :=
  if calls.unique then (sqlite3rowlockPsmCreateTable calls.psm pList iTable).2 else pList

end

end CreateCalls

/-- The root pages are those from before, and the rollback to the savepoint leaves its history and
the index locks from before. -/
structure NoEffect (cfg : Config Key) (conn : Conn) (s s' : TransState Key)
    (newer older : List (RowLockHistory Key)) (iSavepoint : Int) : Prop where
  rootPages : s'.env.rootPages = s.env.rootPages
  indexes : (sqlite3TransBtreeSavepoint cfg conn s' .rollback iSavepoint).env.stores.indexes =
    (newer.foldl (undoHistory cfg conn) s.env).stores.indexes
  history : (sqlite3TransBtreeSavepoint cfg conn s' .rollback iSavepoint).lockSavepoint.pHistory =
    older

section Steps

/-- The beginning of a transaction adds at most a savepoint. -/
theorem begun_same (calls : CreateCalls) (s : TransState Key) :
    (calls.begun s).2.env = s.env ∧
      (calls.begun s).2.lockSavepoint.pHistory = s.lockSavepoint.pHistory := by
  unfold CreateCalls.begun sqlite3TransBtreeBeginTrans rowlockSavepointCreate
  split_ifs <;> exact ⟨rfl, rfl⟩

/-- When a transaction cannot begin. -/
theorem begun_fails_iff : (calls.begun s).1 ≠ .ok ↔
    s.inTransaction = false ∧ (calls.begins = false ∨ calls.savepoint = false) := by
  unfold CreateCalls.begun sqlite3TransBtreeBeginTrans
  cases s.inTransaction <;> cases calls.begins <;> cases calls.savepoint <;> simp

/-- When the index space fails. -/
theorem psmCreateTable_fails_iff (alloc : PsmAlloc) :
    (sqlite3rowlockPsmCreateTable alloc pList iTable).1 ≠ .ok ↔
      iTable ∉ pList.tables ∧ alloc.data = false := by
  unfold sqlite3rowlockPsmCreateTable PsmList.find
  by_cases found : iTable ∈ pList.tables
  · simp [found]
  · cases alloc.data <;> cases alloc.insert.elem <;> simp [found]

/-- The shared memory for the index is there, if it is needed. -/
theorem granted_of_space (space : ¬ (calls.unique = true ∧ iTable ∉ pList.tables ∧
      calls.psm.data = false)) (unique : calls.unique = true) :
    (sqlite3rowlockPsmCreateTable calls.psm pList iTable).1 = .ok :=
  not_not.1 fun fails => space ⟨unique, (psmCreateTable_fails_iff calls.psm).1 fails⟩

/-- The list after the index space. -/
theorem spaced_tables (calls : CreateCalls) (pList : PsmList Key) (iTable : RootPage) :
    calls.NewIndex pList iTable ∧ (calls.spaced pList iTable).tables = iTable :: pList.tables ∨
      ¬ calls.NewIndex pList iTable ∧ calls.spaced pList iTable = pList := by
  unfold CreateCalls.spaced CreateCalls.NewIndex sqlite3rowlockPsmCreateTable PsmList.find
  by_cases found : iTable ∈ pList.tables
  · cases calls.unique <;> simp [found]
  · cases calls.unique <;> cases calls.psm.data <;> cases calls.psm.insert.elem <;> simp [found]

/-- The index space, where the shared memory for it fails. -/
theorem createIndexSpace_refused (refused : (sqlite3rowlockPsmCreateTable calls.psm
      s.env.stores.indexes iTable).1 ≠ .ok) (unique : calls.unique = true) :
    (createIndexSpace calls s iTable).1 ≠ .ok ∧ (createIndexSpace calls s iTable).2 = s := by
  have kept : (sqlite3rowlockPsmCreateTable calls.psm s.env.stores.indexes iTable).2 =
      s.env.stores.indexes := by
    obtain ⟨absent, data⟩ := (psmCreateTable_fails_iff calls.psm).1 refused
    simp [sqlite3rowlockPsmCreateTable, PsmList.find, absent, data]
  unfold createIndexSpace
  rw [if_pos unique, if_neg refused, kept]
  exact ⟨refused, rfl⟩

/-- The index space, where the shared memory for it is there. -/
theorem createIndexSpace_granted (granted : calls.unique = true →
      (sqlite3rowlockPsmCreateTable calls.psm s.env.stores.indexes iTable).1 = .ok) :
    createIndexSpace calls s iTable =
      let spaced := { s with
        env.stores.indexes := calls.spaced s.env.stores.indexes iTable }
      if calls.unique then addHistory calls.indexHistory spaced (historyNewIndex iTable)
      else (.ok, spaced) := by
  unfold createIndexSpace CreateCalls.spaced
  cases unique : calls.unique with
  | false => rfl
  | true =>
    rw [if_pos rfl, if_pos (granted unique), if_pos rfl, if_pos rfl]

/-- When the entry fails. -/
theorem addTransRootPage_fails_iff {memory : Bool} {iIns iDel : Nat} :
    addTransRootPage memory rootPages iTable iIns iDel = none ↔
      rootPages iTable = none ∧ memory = false := by
  unfold addTransRootPage
  cases rootPages iTable <;> cases memory <;> simp

end Steps

section Rollback

variable {env env' : TransEnv Key} {history : RowLockHistory Key}

/-- An undo of index locks depends on them alone. -/
theorem undoHistory_indexes_congr (same : env.stores.indexes = env'.stores.indexes) :
    (undoHistory cfg conn env history).stores.indexes =
      (undoHistory cfg conn env' history).stores.indexes := by
  unfold undoHistory
  cases history.type with
  | record => exact same
  | index => cases history.p <;> simp only [same]
  | newIndex => simp only [same]
  | newTable | tableLock => exact same
  | tableClear => cases env.rootPages history.iTable <;> cases env'.rootPages history.iTable <;>
      exact same

/-- So does the undo of a history. -/
theorem foldl_undoHistory_indexes_congr (same : env.stores.indexes = env'.stores.indexes) :
    (newer.foldl (undoHistory cfg conn) env).stores.indexes =
      (newer.foldl (undoHistory cfg conn) env').stores.indexes := by
  induction newer generalizing env env' with
  | nil => exact same
  | cons history rest ih => exact ih (undoHistory_indexes_congr same)

/-- No undo changes which indexes are in the list. -/
theorem foldl_undoHistory_tables :
    (newer.foldl (undoHistory cfg conn) env).stores.indexes.tables = env.stores.indexes.tables := by
  induction newer generalizing env with
  | nil => rfl
  | cons history rest ih =>
    rw [List.foldl_cons, ih]
    rcases undoHistory_indexes cfg conn env history with ⟨key, -, undone⟩ | ⟨-, same⟩
    · rw [undone]
      unfold sqlite3rowlockPsmUnlockRecord
      cases env.stores.indexes.find history.iTable <;> rfl
    · rw [same]

/-- The records of a new index are undone without effect. -/
theorem foldl_undoHistory_newIndex {new : List (RowLockHistory Key)}
    (only : ∀ record ∈ new, record = historyNewIndex iTable) :
    new.foldl (undoHistory cfg conn) env = env := by
  induction new with
  | nil => rfl
  | cons record rest ih =>
    have first : undoHistory cfg conn env record = env := by
      rw [only record List.mem_cons_self]
      simp only [undoHistory, historyNewIndex, dropTable_eq]
    rw [List.foldl_cons, first]
    exact ih fun each member => only each (List.mem_cons_of_mem _ member)

end Rollback

/-- What a call leaves that fails at a step. -/
structure Left (calls : CreateCalls) (s s' : TransState Key) (iTable : RootPage)
    (point : FailurePoint) : Prop where
  stack : s'.lockSavepoint.pSavepoints = (calls.begun s).2.lockSavepoint.pSavepoints
  history : ∃ new, (∀ record ∈ new, record = historyNewIndex iTable) ∧
    s'.lockSavepoint.pHistory = new ++ s.lockSavepoint.pHistory
  indexes : s'.env.stores.indexes =
    if point.late then calls.spaced s.env.stores.indexes iTable else s.env.stores.indexes
  rootPages : point ≠ .history → s'.env.rootPages = s.env.rootPages
  entered : point = .history → ∃ iInsTable iDelTable : Pgno, ∃ deleteAll,
    calls.iInsTable = some iInsTable ∧ calls.iDelTable = some iDelTable ∧
    (∀ entry, s.env.rootPages iTable = some entry → entry.deleteAll = deleteAll) ∧
    s'.env.rootPages = update s.env.rootPages iTable (some ⟨iInsTable.1, iDelTable.1, deleteAll⟩)

/-- A call that has done no more than begin the transaction. -/
theorem Left.of_begun (early : point.late = false) :
    Left calls s (calls.begun s).2 iTable point where
  stack := rfl
  history := ⟨[], by simp, (begun_same calls s).2⟩
  indexes := by rw [(begun_same calls s).1, early]; rfl
  rootPages _ := by rw [(begun_same calls s).1]
  entered last := by rw [last] at early; cases early

section Failed

variable {iInsTable iDelTable : Pgno}

/-- The call, step by step. -/
theorem createTable_eq (calls : CreateCalls) (s : TransState Key) (iTable : RootPage) :
    sqlite3TransBtreeCreateTable calls s iTable =
      if (calls.begun s).1 = .ok then
        match calls.iInsTable, calls.iDelTable with
        | some iInsTable, some iDelTable =>
          let created := createIndexSpace calls (calls.begun s).2 iTable
          if created.1 = .ok then associate calls created.2 iTable iInsTable iDelTable else created
        | _, _ => (.error, (calls.begun s).2)
      else calls.begun s :=
  rfl

/-- The state after the index space is recorded. -/
def CreateCalls.recorded (calls : CreateCalls) (s : TransState Key) (iTable : RootPage) :
    TransState Key :=
  { s with
    env.stores.indexes := calls.spaced s.env.stores.indexes iTable
    lockSavepoint.pHistory :=
      (if calls.unique then [historyNewIndex iTable] else []) ++ s.lockSavepoint.pHistory }

/-- The index space, where neither memory fails. -/
theorem createIndexSpace_recorded (granted : calls.unique = true →
      (sqlite3rowlockPsmCreateTable calls.psm s.env.stores.indexes iTable).1 = .ok)
    (memory : ¬ (calls.unique = true ∧ calls.indexHistory = false)) :
    createIndexSpace calls s iTable = (.ok, calls.recorded s iTable) := by
  rw [createIndexSpace_granted granted]
  unfold CreateCalls.recorded
  cases unique : calls.unique with
  | false => rfl
  | true =>
    have history : calls.indexHistory = true := by
      cases here : calls.indexHistory with
      | true => rfl
      | false => exact absurd ⟨unique, here⟩ memory
    simp [history, addHistory, sqlite3rowlockHistoryAdd]

/-- The records of the step for the index space. -/
theorem Left.of_recorded {now : TransState Key} (late : point.late = true)
    (stores : now.env.stores.indexes = (calls.recorded (calls.begun s).2 iTable).env.stores.indexes)
    (log : now.lockSavepoint = (calls.recorded (calls.begun s).2 iTable).lockSavepoint)
    (rootPages : point ≠ .history → now.env.rootPages = s.env.rootPages)
    (entered : point = .history → ∃ iInsTable iDelTable : Pgno, ∃ deleteAll,
      calls.iInsTable = some iInsTable ∧ calls.iDelTable = some iDelTable ∧
      (∀ entry, s.env.rootPages iTable = some entry → entry.deleteAll = deleteAll) ∧
      now.env.rootPages = update s.env.rootPages iTable
        (some ⟨iInsTable.1, iDelTable.1, deleteAll⟩)) :
    Left calls s now iTable point where
  stack := by rw [log]; rfl
  history := by
    refine ⟨if calls.unique then [historyNewIndex iTable] else [], ?_, ?_⟩
    · cases calls.unique <;> simp
    · rw [log, ← (begun_same calls s).2]
      rfl
  indexes := by
    rw [stores, late, ← (begun_same calls s).1]
    rfl
  rootPages := rootPages
  entered := entered

/-- The association, where neither memory fails. -/
theorem associate_entered (memory : ¬ (s.env.rootPages iTable = none ∧ calls.memory = false)) :
    associate calls s iTable iInsTable iDelTable =
      addHistory calls.history
        { s with
          env.rootPages := update s.env.rootPages iTable (some ⟨iInsTable.1, iDelTable.1,
            ((s.env.rootPages iTable).map TransRootPage.deleteAll).getD false⟩) }
        (historyNewTable iTable) := by
  unfold associate
  cases success : addTransRootPage calls.memory s.env.rootPages iTable iInsTable.1 iDelTable.1 with
  | none => exact absurd (addTransRootPage_fails_iff.1 success) memory
  | some added =>
    rw [addTransRootPage_some success]

section

variable (begun : (calls.begun s).1 = .ok) (ins : calls.iInsTable = some iInsTable)
  (del : calls.iDelTable = some iDelTable)

include begun ins del

/-- The steps after the trees, in the begun transaction. -/
theorem createTable_of_begun : sqlite3TransBtreeCreateTable calls s iTable =
      let created := createIndexSpace calls (calls.begun s).2 iTable
      if created.1 = .ok then associate calls created.2 iTable iInsTable iDelTable
      else created := by
  rw [createTable_eq, if_pos begun, ins, del]

/-- The step for the entry, after the index space. -/
theorem createTable_of_recorded
    (space : ¬ (calls.unique = true ∧ iTable ∉ s.env.stores.indexes.tables ∧
      calls.psm.data = false)) (memory : ¬ (calls.unique = true ∧ calls.indexHistory = false)) :
    sqlite3TransBtreeCreateTable calls s iTable =
      associate calls (calls.recorded (calls.begun s).2 iTable) iTable iInsTable iDelTable := by
  rw [createTable_of_begun begun ins del, createIndexSpace_recorded ?_ memory]
  · rfl
  · rw [(begun_same calls s).1]
    exact granted_of_space space

end

/-- What a failed step leaves. -/
theorem createTable_failed (failed : calls.failurePoint s iTable = some point) :
    (sqlite3TransBtreeCreateTable calls s iTable).1 ≠ .ok ∧
      Left calls s (sqlite3TransBtreeCreateTable calls s iTable).2 iTable point := by
  have env := (begun_same calls s).1
  have pages : (calls.begun s).2.env.rootPages = s.env.rootPages := by rw [env]
  unfold CreateCalls.failurePoint at failed
  split_ifs at failed with begins trees space indexHistory memory last
  · have fails : (calls.begun s).1 ≠ .ok := begun_fails_iff.2 begins
    rw [createTable_eq, if_neg fails]
    cases failed
    exact ⟨fails, .of_begun rfl⟩
  all_goals
    have begun : (calls.begun s).1 = .ok := not_not.1 fun fails => begins (begun_fails_iff.1 fails)
  · rw [createTable_eq, if_pos begun]
    split
    · rename_i ins del
      rw [ins, del] at trees
      rcases trees with none_ | none_ <;> cases none_
    · cases failed
      exact ⟨nofun, .of_begun rfl⟩
  all_goals
    obtain ⟨iInsTable, ins⟩ := Option.ne_none_iff_exists'.1 (not_or.1 trees).1
    obtain ⟨iDelTable, del⟩ := Option.ne_none_iff_exists'.1 (not_or.1 trees).2
    cases failed
  · have refused : (sqlite3rowlockPsmCreateTable calls.psm
        (calls.begun s).2.env.stores.indexes iTable).1 ≠ .ok := by
      rw [env]
      exact (psmCreateTable_fails_iff calls.psm).2 space.2
    obtain ⟨fails, same⟩ := createIndexSpace_refused refused space.1
    rw [createTable_of_begun begun ins del]
    rw [if_neg fails, same]
    exact ⟨fails, .of_begun rfl⟩
  · have granted : calls.unique = true → (sqlite3rowlockPsmCreateTable calls.psm
        (calls.begun s).2.env.stores.indexes iTable).1 = .ok := by
      rw [env]
      exact granted_of_space space
    have unrecorded : createIndexSpace calls (calls.begun s).2 iTable =
        (.nomem, { (calls.begun s).2 with
          env.stores.indexes := calls.spaced (calls.begun s).2.env.stores.indexes iTable }) := by
      rw [createIndexSpace_granted granted, indexHistory.1, indexHistory.2]
      rfl
    rw [createTable_of_begun begun ins del, unrecorded]
    refine ⟨nofun, rfl, ⟨[], by simp, (begun_same calls s).2⟩, ?_, fun _ => pages, nofun⟩
    rw [← env]
    rfl
  · have absent : addTransRootPage calls.memory (calls.recorded (calls.begun s).2
        iTable).env.rootPages iTable iInsTable.1 iDelTable.1 = none := by
      refine addTransRootPage_fails_iff.2 ?_
      rw [← env] at memory
      exact memory
    rw [createTable_of_recorded begun ins del space indexHistory]
    unfold associate
    rw [absent]
    exact ⟨nofun, .of_recorded rfl rfl rfl (fun _ => pages) nofun⟩
  · have entered : ¬ ((calls.recorded (calls.begun s).2 iTable).env.rootPages iTable = none ∧
        calls.memory = false) := by
      rw [← env] at memory
      exact memory
    rw [createTable_of_recorded begun ins del space indexHistory, associate_entered entered, last]
    refine ⟨nofun, .of_recorded rfl rfl rfl (fun other => absurd rfl other) fun _ => ?_⟩
    refine ⟨iInsTable, iDelTable, ((s.env.rootPages iTable).map TransRootPage.deleteAll).getD false,
      ins, del, fun entry found => ?_, ?_⟩
    · rw [found]
      rfl
    · rw [← pages]
      rfl

/-- Without a failed step the call succeeds. -/
theorem createTable_completes (completes : calls.failurePoint s iTable = none) :
    (sqlite3TransBtreeCreateTable calls s iTable).1 = .ok := by
  have env := (begun_same calls s).1
  unfold CreateCalls.failurePoint at completes
  split_ifs at completes with begins trees space indexHistory memory last
  have begun : (calls.begun s).1 = .ok := not_not.1 fun fails => begins (begun_fails_iff.1 fails)
  obtain ⟨iInsTable, ins⟩ := Option.ne_none_iff_exists'.1 (not_or.1 trees).1
  obtain ⟨iDelTable, del⟩ := Option.ne_none_iff_exists'.1 (not_or.1 trees).2
  have entered : ¬ ((calls.recorded (calls.begun s).2 iTable).env.rootPages iTable = none ∧
      calls.memory = false) := by
    rw [← env] at memory
    exact memory
  have recorded : calls.history = true := by simpa using last
  rw [createTable_of_recorded begun ins del space indexHistory, associate_entered entered, recorded]
  rfl

end Failed

section

variable (left : Left calls s s' iTable point)

include left

/-- The list has the new index, or is as before. -/
theorem Left.grown : (point.late = true ∧ calls.NewIndex s.env.stores.indexes iTable) ∧
        s'.env.stores.indexes.tables = iTable :: s.env.stores.indexes.tables ∨
      (point.late = true → ¬ calls.NewIndex s.env.stores.indexes iTable) ∧
        s'.env.stores.indexes = s.env.stores.indexes := by
  rw [left.indexes]
  split_ifs with late
  · rcases spaced_tables calls s.env.stores.indexes iTable with ⟨new, longer⟩ | ⟨old, same⟩
    · exact Or.inl ⟨⟨late, new⟩, longer⟩
    · exact Or.inr ⟨fun _ => old, same⟩
  · exact Or.inr ⟨fun reached => absurd reached late, rfl⟩

/-- A failed call had no effect if root pages and list are as before. -/
theorem Left.noEffect_iff (history : s.lockSavepoint.pHistory = newer ++ older)
    (enclosing : target (calls.begun s).2.lockSavepoint.pSavepoints iSavepoint =
      some (older.length, below)) : NoEffect cfg conn s s' newer older iSavepoint ↔
      s'.env.rootPages = s.env.rootPages ∧ s'.env.stores.indexes = s.env.stores.indexes := by
  obtain ⟨new, only, added⟩ := left.history
  have log : s'.lockSavepoint =
      ⟨(new ++ newer) ++ older, (calls.begun s).2.lockSavepoint.pSavepoints⟩ := by
    rw [← left.stack, List.append_assoc, ← history, ← added]
  have rolled : sqlite3TransBtreeSavepoint cfg conn s' .rollback iSavepoint =
      { s' with
        lockSavepoint := ⟨older, ⟨older.length, iSavepoint⟩ :: below⟩
        env := newer.foldl (undoHistory cfg conn) s'.env } := by
    unfold sqlite3TransBtreeSavepoint
    rw [log, rowlockSavepoint_rollback enclosing, List.foldl_append,
      foldl_undoHistory_newIndex only]
  constructor
  · intro effect
    refine ⟨effect.rootPages, ?_⟩
    have tables := congrArg PsmList.tables effect.indexes
    rw [rolled, foldl_undoHistory_tables, foldl_undoHistory_tables] at tables
    rcases left.grown with ⟨-, longer⟩ | ⟨-, same⟩
    · rw [longer] at tables
      exact absurd tables (List.cons_ne_self _ _)
    · exact same
  · rintro ⟨rootPages, indexes⟩
    refine ⟨rootPages, ?_, ?_⟩
    · rw [rolled]
      exact foldl_undoHistory_indexes_congr indexes
    · rw [rolled]

/-- When the list is as before. -/
theorem Left.indexes_same_iff : s'.env.stores.indexes = s.env.stores.indexes ↔
      (point.late = true → ¬ calls.NewIndex s.env.stores.indexes iTable) := by
  rcases left.grown with ⟨⟨late, new⟩, longer⟩ | ⟨old, same⟩
  · refine ⟨fun same => ?_, fun old => absurd new (old late)⟩
    rw [same] at longer
    exact absurd longer.symm (List.cons_ne_self _ _)
  · exact ⟨fun _ => old, fun _ => same⟩

/-- When the root pages are as before. -/
theorem Left.rootPages_same_iff : s'.env.rootPages = s.env.rootPages ↔
      (point = .history → calls.Named s.env.rootPages iTable) := by
  by_cases last : point = .history
  · obtain ⟨iInsTable, iDelTable, deleteAll, ins, del, kept, entered⟩ := left.entered last
    rw [entered, update_eq_self_iff]
    unfold CreateCalls.Named
    rw [ins, del]
    constructor
    · intro same _
      exact ⟨⟨iInsTable.1, iDelTable.1, deleteAll⟩, same.symm, rfl, rfl⟩
    · intro named
      obtain ⟨⟨iIns, iDel, flag⟩, found, sameIns, sameDel⟩ := named last
      have sameFlag : flag = deleteAll := kept _ found
      rw [found, ← sameFlag, Option.some.inj sameIns, Option.some.inj sameDel]
  · exact ⟨fun _ reached => absurd reached last, fun _ => left.rootPages last⟩

end

/-- A failed call has no effect exactly if the step that fails is harmless: an index that the call
put into the list stays there after the rollback, and an entry whose record fails stays in the map,
with the pages of two trees that are dropped. -/
theorem failed_createTable_noEffect_iff (cfg : Config Key) (conn : Conn) (calls : CreateCalls)
    (s : TransState Key) (iTable : RootPage) (iSavepoint : Int)
    (history : s.lockSavepoint.pHistory = newer ++ older)
    (enclosing : target (calls.begun s).2.lockSavepoint.pSavepoints iSavepoint =
      some (older.length, below)) :
    ((sqlite3TransBtreeCreateTable calls s iTable).1 ≠ .ok →
        NoEffect cfg conn s (sqlite3TransBtreeCreateTable calls s iTable).2 newer older
          iSavepoint) ↔
      calls.Harmless s iTable := by
  unfold CreateCalls.Harmless
  cases reached : calls.failurePoint s iTable with
  | none =>
    have completes := createTable_completes reached
    exact ⟨fun _ => nofun, fun _ fails => absurd completes fails⟩
  | some point =>
    obtain ⟨fails, left⟩ := createTable_failed reached
    have effect : NoEffect cfg conn s (sqlite3TransBtreeCreateTable calls s iTable).2 newer older
        iSavepoint ↔ _ := left.noEffect_iff history enclosing
    rw [left.rootPages_same_iff, left.indexes_same_iff] at effect
    constructor
    · intro clean each same
      cases same
      exact (effect.1 (clean fails)).symm
    · intro harmless _
      exact effect.2 (harmless point rfl).symm

/-- A table that is no unique index; the record of its entry fails. -/
def unrecordedTable : CreateCalls :=
  ⟨true, true, 1, some pageThree, some pageFour, false, .all, true, true, false⟩

/-- A unique index; there is no memory for the entry. -/
def unenteredIndex : CreateCalls :=
  ⟨true, true, 1, some pageThree, some pageFour, true, .all, true, false, true⟩

/-- The condition where the record fails. -/
theorem failed_createTable_noEffect_unrecorded :
    let s := savepointCreate beganTransaction 1
    (s.lockSavepoint.pHistory = [] ++ [] ∧
      target (unrecordedTable.begun s).2.lockSavepoint.pSavepoints 1 = some (0, [])) ∧
    (((sqlite3TransBtreeCreateTable unrecordedTable s tableTwo).1 ≠ .ok →
        NoEffect smallConfig connA s (sqlite3TransBtreeCreateTable unrecordedTable s tableTwo).2
          [] [] 1) ↔
      unrecordedTable.Harmless s tableTwo) :=
  ⟨⟨rfl, rfl⟩, failed_createTable_noEffect_iff smallConfig connA unrecordedTable
    (savepointCreate beganTransaction 1) tableTwo 1 rfl rfl⟩

/-- The entry of two dropped trees stays, also after the rollback; and so does an index in the list,
although its record was undone. -/
theorem failed_createTable_leaves :
    let s := savepointCreate beganTransaction 1
    let table := sqlite3TransBtreeCreateTable unrecordedTable s tableTwo
    let index := sqlite3TransBtreeCreateTable unenteredIndex s tableTwo
    (table.1 = .nomem ∧ s.env.rootPages tableTwo = none ∧
      table.2.env.rootPages tableTwo = some ⟨3, 4, false⟩ ∧
      (sqlite3TransBtreeSavepoint smallConfig connA table.2 .rollback 1).env.rootPages tableTwo =
        some ⟨3, 4, false⟩) ∧
    index.1 = .nomem ∧ s.env.stores.indexes.tables = [] ∧
      index.2.lockSavepoint.pHistory = [historyNewIndex tableTwo] ∧
      (sqlite3TransBtreeSavepoint smallConfig connA index.2 .rollback
        1).env.stores.indexes.tables = [tableTwo] := by
  decide

end SQLumDash.Savepoint
