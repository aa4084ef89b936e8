import SQLumDash.Trans.System
import SQLumDash.Lib.Run

/-!
# What a step does to locks, histories and savepoints

Which lock changes hands, what the trees get more, and what the history records. Every invariant is
derived from these descriptions.
-/

namespace SQLumDash.Trans

open Ipc Psm Savepoint Std Function

variable {Record Data : Type} {layout : Layout Record} {s s' : System layout Data}
  {trees : Trees layout Data}
  {conn other : Conn} {iTable t : RootPage} {rowid row : Int}
  {trans trans' : Transaction layout Data} {locks : Locks layout.lock}
  {request taken : Option (RootPage × Int)}

/-- The handle that holds a row. -/
def System.holder (s : System layout Data) (iTable : RootPage) (rowid : Int) : Option Handle :=
  s.locks.rows.holder iTable rowid

/-- The row is in one of the trees of the table. -/
def Trees.WritesRow (trees : Trees layout Data) (iTable : RootPage) (rowid : Int) : Prop :=
  (trees.tables iTable).Writes rowid

/-- The row is in the insertion tree of the table. -/
def Trees.InsertsRow (trees : Trees layout Data) (iTable : RootPage) (rowid : Int) : Prop :=
  rowid ∈ (trees.tables iTable).ins

/-- The history of a transaction, newest first. -/
def Transaction.history (trans : Transaction layout Data) : List (RowRecord Record) :=
  trans.lockSavepoint.pHistory

namespace System

/-- The connection has the transaction that is set. -/
theorem setTrans_self : (s.setTrans conn locks trans).trans conn = trans :=
  update_self ..

/-- The ways a call can go on after a lock request. -/
theorem afterLock_cases (s : System layout Data) (conn : Conn) (answer : Rc × Locks layout.lock)
    (record : RowRecord Record) (trees : Trees layout Data) (refusal : Rc → Rc) :
    (answer.1 = .ok ∧ s.afterLock conn answer record trees refusal =
      (.ok, s.setTrans conn answer.2 ⟨trees, ⟨record :: (s.trans conn).history,
        (s.trans conn).lockSavepoint.pSavepoints⟩, (s.trans conn).saved⟩)) ∨
    (answer.1 = .done ∧ s.afterLock conn answer record trees refusal =
      (.ok, s.setTrans conn answer.2 { s.trans conn with trees := trees })) ∨
    (answer.1 ≠ .ok ∧ answer.1 ≠ .done ∧
      s.afterLock conn answer record trees refusal = (refusal answer.1, s)) := by
  obtain ⟨rc, locks⟩ := answer
  cases rc with
  | ok => exact Or.inl ⟨rfl, rfl⟩
  | done => exact Or.inr (Or.inl ⟨rfl, rfl⟩)
  | _ => exact Or.inr (Or.inr ⟨nofun, nofun, rfl⟩)

end System

/-- A lock request leaves the savepoints. -/
theorem System.afterLock_trans (s : System layout Data) (conn : Conn)
    (answer : Rc × Locks layout.lock) (record : RowRecord Record) (trees : Trees layout Data)
    (refusal : Rc → Rc) :
    ∃ trans, (s.afterLock conn answer record trees refusal).2.trans =
      update s.trans conn trans ∧ trans.saved = (s.trans conn).saved := by
  rcases s.afterLock_cases conn answer record trees refusal with ⟨-, eq⟩ | ⟨-, eq⟩ | ⟨-, -, eq⟩
  · rw [eq]
    exact ⟨_, rfl, rfl⟩
  · rw [eq]
    exact ⟨_, rfl, rfl⟩
  · rw [eq]
    exact ⟨_, (update_eq_self ..).symm, rfl⟩

/-- A step changes one transaction; only `savepoint` gives it a first savepoint. -/
theorem step_trans (s : System layout Data) (action : Action Record Data) :
    ∃ trans, (step s action).trans = update s.trans action.conn trans ∧
      ((∀ conn, action ≠ .savepoint conn) → (s.trans action.conn).saved = [] →
        trans.saved = []) := by
  have same : s.trans = update s.trans action.conn (s.trans action.conn) :=
    (update_eq_self ..).symm
  have lock := fun answer record trees refusal =>
    (s.afterLock_trans action.conn answer record trees refusal).imp fun _ found =>
      And.intro found.1 fun (_ : ∀ conn, action ≠ .savepoint conn)
        (none : (s.trans action.conn).saved = []) => found.2.trans none
  unfold step Action.perform
  cases action with
  | insertTable => exact lock _ _ _ _
  | deleteTable conn iTable transIsUsed rowid =>
    dsimp only
    generalize (if transIsUsed = true then _ else _) = stands
    cases stands with
    | false => exact ⟨_, same, fun _ none => none⟩
    | true =>
      unfold System.sqlite3TransBtreeDeleteTable
      cases transIsUsed with
      | true => exact ⟨_, rfl, fun _ none => none⟩
      | false => exact lock _ _ _ _
  | insertIndex => exact lock _ _ _ _
  | deleteIndex conn alloc iTable transIsUsed key =>
    dsimp only
    generalize (if transIsUsed = true then _ else _) = stands
    cases stands with
    | none => exact ⟨_, same, fun _ none => none⟩
    | some record =>
      unfold System.sqlite3TransBtreeDeleteIndex
      cases transIsUsed with
      | true => exact ⟨_, rfl, fun _ none => none⟩
      | false => exact lock _ _ _ _
  | createIndex => exact ⟨_, same, fun _ none => none⟩
  | savepoint conn => exact ⟨_, rfl, fun plain => absurd rfl (plain conn)⟩
  | endSavepoint conn op iSavepoint =>
    dsimp only [System.sqlite3TransBtreeSavepoint]
    cases found : System.savedAt (s.trans conn).saved iSavepoint with
    | none => exact ⟨_, same, fun _ none => none⟩
    | some point =>
      have used : (s.trans conn).saved ≠ [] := by
        intro none
        rw [none] at found
        cases found
      cases op <;> exact ⟨_, rfl, fun _ none => absurd none used⟩
  | commit | rollback => exact ⟨_, rfl, fun _ _ => rfl⟩

/-- A step leaves other transactions alone. -/
theorem step_others (s : System layout Data) (action : Action Record Data)
    (apart : other ≠ action.conn) : (step s action).trans other = s.trans other := by
  obtain ⟨trans, eq, -⟩ := step_trans s action
  rw [eq, update_of_ne apart]

section Savepoints

variable {Saved : Type} {R : RowLockSavepointEntry → Int × Trees layout Data → Prop}
  {entries : List RowLockSavepointEntry} {saved : List (Int × Trees layout Data)}

/-- Savepoints have the number of savepoints below them. -/
def Numbered : List (Int × Trees layout Data) → Prop
  | [] => True
  | entry :: below => entry.1 = below.length ∧ Numbered below

/-- The savepoints of history and trees are the same. -/
structure Aligned (trans : Transaction layout Data) : Prop where
  numbered : Numbered trans.saved
  points : List.Forall₂ (fun entry saved => entry.iSavepoint = saved.1)
    trans.lockSavepoint.pSavepoints trans.saved
  within : ∀ entry ∈ trans.lockSavepoint.pSavepoints, entry.iLockRecord ≤ trans.history.length
  sorted : trans.lockSavepoint.pSavepoints.Pairwise fun newer older =>
    older.iLockRecord ≤ newer.iLockRecord

/-- The history has the savepoints of the trees. -/
theorem target_of_savedAt {iSavepoint : Int} {below : List (Int × Trees layout Data)}
    (related : List.Forall₂ R entries saved)
    (numbers : ∀ entry saved, R entry saved → entry.iSavepoint = saved.1)
    (found : System.savedAt saved iSavepoint = some (trees, below)) :
    ∃ position lower, target entries iSavepoint = some (position, lower) ∧
      List.Forall₂ R (⟨position, iSavepoint⟩ :: lower) ((iSavepoint, trees) :: below) ∧
      (⟨position, iSavepoint⟩ :: lower) <:+ entries ∧ ((iSavepoint, trees) :: below) <:+ saved := by
  induction related with
  | nil => cases found
  | @cons entry point entries saved here rest ih =>
    unfold System.savedAt at found
    unfold target
    rw [numbers entry point here]
    by_cases same : point.1 = iSavepoint
    · rw [if_pos same] at found ⊢
      cases found
      have entry_ : entry = ⟨entry.iLockRecord, iSavepoint⟩ := by
        rw [← same, ← numbers entry point here]
      have point_ : point = (iSavepoint, point.2) := by rw [← same]
      refine ⟨entry.iLockRecord, entries, rfl, ?_, ?_, ?_⟩
      · rw [← entry_, ← point_]
        exact .cons here rest
      · rw [← entry_]
      · rw [← point_]
    · rw [if_neg same] at found ⊢
      obtain ⟨position, lower, target, related, suffix, suffix'⟩ := ih found
      exact ⟨position, lower, target, related, suffix.trans (List.suffix_cons _ _),
        suffix'.trans (List.suffix_cons _ _)⟩

/-- Numbering holds of the savepoints below one. -/
theorem Numbered.suffix {above below : List (Int × Trees layout Data)}
    (suffix : below <:+ above) (numbered : Numbered above) : Numbered below := by
  induction above with
  | nil =>
    rw [List.suffix_nil.1 suffix]
    trivial
  | cons entry above ih =>
    rcases List.suffix_cons_iff.1 suffix with rfl | suffix
    · exact numbered
    · exact ih suffix numbered.2

/-- The savepoint that is created is a new one. -/
theorem Aligned.create (aligned : Aligned trans) :
    rowlockSavepointCreate trans.lockSavepoint trans.saved.length =
      ⟨trans.history, ⟨trans.history.length, trans.saved.length⟩ ::
        trans.lockSavepoint.pSavepoints⟩ := by
  unfold rowlockSavepointCreate
  rw [if_neg]
  · rfl
  · intro top
    have points := aligned.points
    have numbered := aligned.numbered
    cases entries : trans.lockSavepoint.pSavepoints with
    | nil =>
      rw [entries] at top
      cases top
    | cons entry lower =>
      rw [entries] at top points
      cases saved : trans.saved with
      | nil =>
        rw [saved] at points
        cases points
      | cons point below =>
        rw [saved] at points numbered top
        have number := (List.forall₂_cons.1 points).1
        cases top
        have length : ((point :: below).length : Int) = point.1 := number
        rw [numbered.1, List.length_cons] at length
        omega

/-- The history splits at the position of a savepoint. -/
theorem Aligned.split (aligned : Aligned trans) {entry : RowLockSavepointEntry}
    (member : entry ∈ trans.lockSavepoint.pSavepoints) :
    ∃ newer older, trans.history = newer ++ older ∧ older.length = entry.iLockRecord := by
  have within := aligned.within entry member
  refine ⟨trans.history.take (trans.history.length - entry.iLockRecord),
    trans.history.drop (trans.history.length - entry.iLockRecord),
    (List.take_append_drop _ _).symm, ?_⟩
  rw [List.length_drop]
  omega

/-- What a rollback to a savepoint leaves and undoes. -/
theorem Aligned.rolledBack (aligned : Aligned trans) {position : Nat} {iSavepoint : Int}
    {lower : List RowLockSavepointEntry}
    (found : target trans.lockSavepoint.pSavepoints iSavepoint = some (position, lower))
    (suffix : (⟨position, iSavepoint⟩ :: lower) <:+ trans.lockSavepoint.pSavepoints)
    (locks : Locks layout.lock) :
    ∃ newer older, trans.history = newer ++ older ∧ older.length = position ∧
      rowlockSavepoint System.undoRecord trans.lockSavepoint .rollback iSavepoint locks =
        (⟨older, ⟨older.length, iSavepoint⟩ :: lower⟩, newer.foldl System.undoRecord locks) := by
  obtain ⟨newer, older, history, length⟩ := aligned.split (suffix.subset List.mem_cons_self)
  dsimp only at length
  refine ⟨newer, older, history, length, ?_⟩
  have log : trans.lockSavepoint = ⟨newer ++ older, trans.lockSavepoint.pSavepoints⟩ := by
    rw [← history]
    rfl
  rw [log]
  rw [← length] at found
  exact rowlockSavepoint_rollback found

end Savepoints

/-- The row whose lock a step requests. -/
def Action.requestedRow : Action Record Data → Option (RootPage × Int)
  | .insertTable _ iTable _ _ _ rowid _ => some (iTable, rowid)
  | .deleteTable _ iTable false rowid => some (iTable, rowid)
  | _ => none

/-- The row that a step takes back. -/
def Action.takenRow : Action Record Data → Option (RootPage × Int)
  | .deleteTable _ iTable true rowid => some (iTable, rowid)
  | _ => none

/-- What a step does to the row locks and to its transaction. -/
inductive RowStep (request taken : Option (RootPage × Int)) (conn : Conn)
    (s s' : System layout Data) : Prop
  /-- No lock changes hands; the trees get only locked rows. -/
  | kept (holder : ∀ t row, s'.holder t row = s.holder t row)
      (writes : ∀ t row, (s'.trans conn).trees.WritesRow t row →
        (s.trans conn).trees.WritesRow t row ∨ s.holder t row = some conn.1)
      (inserts : ∀ t row, (s'.trans conn).trees.InsertsRow t row →
        (s.trans conn).trees.InsertsRow t row ∨ s.holder t row = some conn.1)
      (new : List (RowRecord Record)) (quiet : ∀ t row, .record t row ∉ new)
      (log : (s'.trans conn).lockSavepoint =
        ⟨new ++ (s.trans conn).history, (s.trans conn).lockSavepoint.pSavepoints⟩)
      (saved : (s'.trans conn).saved = (s.trans conn).saved)
  /-- A free row is locked, recorded and written. -/
  | locked (iTable : RootPage) (rowid : Int) (requested : request = some (iTable, rowid))
      (granted : (s.lockRow conn iTable rowid).1 = .ok) (free : s.holder iTable rowid = none)
      (holder : ∀ t row, s'.holder t row =
        if t = iTable ∧ row = rowid then some conn.1 else s.holder t row)
      (writes : ∀ t row, (s'.trans conn).trees.WritesRow t row →
        (s.trans conn).trees.WritesRow t row ∨ t = iTable ∧ row = rowid)
      (inserts : ∀ t row, (s'.trans conn).trees.InsertsRow t row →
        (s.trans conn).trees.InsertsRow t row ∨ t = iTable ∧ row = rowid)
      (log : (s'.trans conn).lockSavepoint = ⟨.record iTable rowid :: (s.trans conn).history,
        (s.trans conn).lockSavepoint.pSavepoints⟩)
      (saved : (s'.trans conn).saved = (s.trans conn).saved)
  /-- A row is taken back and unlocked. -/
  | unlocked (iTable : RootPage) (rowid : Int) (back : taken = some (iTable, rowid))
      (absent : rowid ∉ ((s.trans conn).trees.tables iTable).del)
      (inserted : (s.trans conn).trees.InsertsRow iTable rowid)
      (holder : ∀ t row, s'.holder t row =
        if t = iTable ∧ row = rowid then none else s.holder t row)
      (writes : ∀ t row, (s'.trans conn).trees.WritesRow t row →
        (s.trans conn).trees.WritesRow t row ∧ ¬ (t = iTable ∧ row = rowid))
      (inserts : ∀ t row, (s'.trans conn).trees.InsertsRow t row →
        (s.trans conn).trees.InsertsRow t row)
      (log : (s'.trans conn).lockSavepoint = (s.trans conn).lockSavepoint)
      (saved : (s'.trans conn).saved = (s.trans conn).saved)
  | opened (holder : ∀ t row, s'.holder t row = s.holder t row)
      (trees : (s'.trans conn).trees = (s.trans conn).trees)
      (log : (s'.trans conn).lockSavepoint = ⟨(s.trans conn).history,
        ⟨(s.trans conn).history.length, (s.trans conn).saved.length⟩ ::
          (s.trans conn).lockSavepoint.pSavepoints⟩)
      (saved : (s'.trans conn).saved =
        (((s.trans conn).saved.length : Int), (s.trans conn).trees) :: (s.trans conn).saved)
  /-- What was recorded since a savepoint is unlocked. -/
  | rolledBack (newer older : List (RowRecord Record)) (iSavepoint : Int)
      (trees : Trees layout Data) (lower : List RowLockSavepointEntry)
      (below : List (Int × Trees layout Data))
      (found : System.savedAt (s.trans conn).saved iSavepoint = some (trees, below))
      (position : target (s.trans conn).lockSavepoint.pSavepoints iSavepoint =
        some (older.length, lower))
      (history : (s.trans conn).history = newer ++ older)
      (freed : ∀ t row, .record t row ∈ newer → s'.holder t row = none)
      (holder : ∀ t row, .record t row ∉ newer → s'.holder t row = s.holder t row)
      (trans : s'.trans conn = ⟨trees, ⟨older, ⟨older.length, iSavepoint⟩ :: lower⟩,
        (iSavepoint, trees) :: below⟩)
  | released (iSavepoint : Int) (trees : Trees layout Data) (position : Nat)
      (lower : List RowLockSavepointEntry) (below : List (Int × Trees layout Data))
      (found : System.savedAt (s.trans conn).saved iSavepoint = some (trees, below))
      (position : target (s.trans conn).lockSavepoint.pSavepoints iSavepoint =
        some (position, lower))
      (holder : ∀ t row, s'.holder t row = s.holder t row)
      (trans : s'.trans conn = ⟨(s.trans conn).trees, ⟨(s.trans conn).history, lower⟩, below⟩)
  | finished (holder : ∀ t row, s'.holder t row =
        if s.holder t row = some conn.1 then none else s.holder t row)
      (trans : s'.trans conn = .idle)

/-- Nothing of the rows changes. -/
theorem RowStep.of_same (rows : s'.locks.rows = s.locks.rows)
    (trans : s'.trans conn = s.trans conn) : RowStep request taken conn s s' :=
  .kept (fun _ _ => by unfold System.holder; rw [rows])
    (fun _ _ writes => Or.inl (trans ▸ writes)) (fun _ _ inserts => Or.inl (trans ▸ inserts)) []
    (fun _ _ member => nomatch member) (by rw [trans]; rfl) (by rw [trans])

/-- The undo of a record frees the row it names. -/
theorem undoRecord_holder (locks : Locks layout.lock) (record : RowRecord Record) (t : RootPage)
    (row : Int) :
    (record = .record t row → (System.undoRecord locks record).rows.holder t row = none) ∧
      (record ≠ .record t row →
        (System.undoRecord locks record).rows.holder t row = locks.rows.holder t row) := by
  cases record with
  | record iTable rowid =>
    have here : (locks.rows.unlockRecord iTable rowid).holder t row = _ :=
      RowLockTable.unlockRecord_holder
    constructor
    · intro same
      injection same with table number
      exact here.trans (if_pos ⟨table.symm, number.symm⟩)
    · intro apart
      exact here.trans (if_neg fun same => apart (by rw [same.1, same.2]))
  | index iTable key => exact ⟨nofun, fun _ => rfl⟩

/-- Undoing records frees the rows among them. -/
theorem foldl_undoRecord_holder (newer : List (RowRecord Record)) :
    ∀ {locks : Locks layout.lock},
      (.record t row ∈ newer → (newer.foldl System.undoRecord locks).rows.holder t row = none) ∧
      (.record t row ∉ newer →
        (newer.foldl System.undoRecord locks).rows.holder t row = locks.rows.holder t row) := by
  induction newer with
  | nil => exact fun {locks} => ⟨nofun, fun _ => rfl⟩
  | cons record rest ih =>
    intro locks
    obtain ⟨freed, others⟩ := undoRecord_holder locks record t row
    obtain ⟨freed', others'⟩ := @ih (System.undoRecord locks record)
    rw [List.foldl_cons]
    constructor
    · intro member
      by_cases later : RowRecord.record t row ∈ rest
      · exact freed' later
      · rw [others' later]
        exact freed ((List.mem_cons.1 member).resolve_right later).symm
    · intro outside
      rw [List.mem_cons, not_or] at outside
      rw [others' outside.2]
      exact others fun same => outside.1 same.symm

section Pending

variable {Key : Type} {cmp : Key → Key → Ordering} [TransCmp cmp] {pending : Pending Key Data cmp}
  {isUpdate : Bool} {key key' : Key} {data : Data}

/-- The insertion tree gets the key. -/
theorem Pending.mem_insert_ins :
    key' ∈ (pending.insert isUpdate key data).ins ↔ cmp key key' = .eq ∨ key' ∈ pending.ins :=
  ExtTreeMap.mem_insert

/-- The deletion tree gets the key of an update. -/
theorem Pending.mem_insert_del : key' ∈ (pending.insert isUpdate key data).del ↔
    isUpdate = true ∧ cmp key key' = .eq ∨ key' ∈ pending.del := by
  unfold insert
  cases isUpdate with
  | true => simp only [if_true, ExtTreeMap.mem_insert, true_and]
  | false => simp only [Bool.false_eq_true, if_false, false_and, false_or]

/-- An insertion writes its key only. -/
theorem Pending.insert_writes (writes : (pending.insert isUpdate key data).Writes key') :
    cmp key key' = .eq ∨ pending.Writes key' := by
  rcases writes with inserted | deleted
  · exact (mem_insert_ins.1 inserted).imp_right Or.inl
  · exact (mem_insert_del.1 deleted).imp And.right Or.inr

/-- The insertion tree loses a key that is taken back. -/
theorem Pending.mem_takeBack_ins :
    key' ∈ (pending.takeBack key).ins ↔ cmp key key' ≠ .eq ∧ key' ∈ pending.ins :=
  ExtTreeMap.mem_erase

/-- The deletion tree gets the key that is deleted. -/
theorem Pending.mem_delete_del :
    key' ∈ (pending.delete key).del ↔ cmp key key' = .eq ∨ key' ∈ pending.del :=
  ExtTreeMap.mem_insert

/-- A deletion writes its key only. -/
theorem Pending.delete_writes (writes : (pending.delete key).Writes key') :
    cmp key key' = .eq ∨ pending.Writes key' := by
  rcases writes with inserted | deleted
  · exact Or.inr (Or.inl inserted)
  · exact (mem_delete_del.1 deleted).imp_right Or.inr

end Pending

/-- The trees of a table that is set. -/
theorem Trees.setTable_tables (trees : Trees layout Data) (iTable t : RootPage)
    (pending : Pending Int Data compare) : (trees.setTable iTable pending).tables t =
      if t = iTable then pending else trees.tables t := update_apply ..

/-- Trees in which one table changed, and there at one row. -/
theorem Trees.setTable_forall {pending : Pending Int Data compare}
    {P : Pending Int Data compare → Int → Prop}
    (here : ∀ row, P pending row → P (trees.tables iTable) row ∨ row = rowid) (t : RootPage)
    (row : Int) (after : P ((trees.setTable iTable pending).tables t) row) :
    P (trees.tables t) row ∨ t = iTable ∧ row = rowid := by
  rw [setTable_tables] at after
  by_cases same : t = iTable
  · subst same
    rw [if_pos rfl] at after
    exact (here row after).imp_right fun number => ⟨rfl, number⟩
  · rw [if_neg same] at after
    exact Or.inl after

/-- A row lock that is granted was free. -/
theorem lockRow_ok (granted : (s.lockRow conn iTable rowid).1 = .ok) :
    s.holder iTable rowid = none ∧ ∀ t row, (s.lockRow conn iTable rowid).2.rows.holder t row =
      if t = iTable ∧ row = rowid then some conn.1 else s.holder t row := by
  refine ⟨?_, fun t row => RowLockTable.lockRecord_holder granted⟩
  have answer : (s.lockRow conn iTable rowid).1 = _ := RowLockTable.lockRecord_rc
  rw [granted] at answer
  split at answer
  · split_ifs at answer
  · assumption

/-- The answer `done` is for a row that the connection has. -/
theorem lockRow_done (held : (s.lockRow conn iTable rowid).1 = .done) :
    s.holder iTable rowid = some conn.1 ∧ (s.lockRow conn iTable rowid).2 = s.locks := by
  constructor
  · have answer : (s.lockRow conn iTable rowid).1 = _ := RowLockTable.lockRecord_rc
    rw [held] at answer
    split at answer
    · split_ifs at answer with mine
      rwa [← mine]
    · split_ifs at answer
  · have refused : (s.lockRow conn iTable rowid).1 ≠ .ok := by
      rw [held]
      decide
    have same := RowLockTable.lockRecord_refused refused
    change { s.locks with rows := (s.locks.rows.lockRecord conn.1 iTable rowid).2 } = s.locks
    rw [same]

/-- A call that locks a row and writes it. -/
theorem rowStep_lock {refusal : Rc → Rc}
    (writes : ∀ t row, trees.WritesRow t row →
      (s.trans conn).trees.WritesRow t row ∨ t = iTable ∧ row = rowid)
    (inserts : ∀ t row, trees.InsertsRow t row →
      (s.trans conn).trees.InsertsRow t row ∨ t = iTable ∧ row = rowid) :
    RowStep (some (iTable, rowid)) taken conn s (s.afterLock conn (s.lockRow conn iTable rowid)
      (.record iTable rowid) trees refusal).2 := by
  rcases s.afterLock_cases conn (s.lockRow conn iTable rowid) (.record iTable rowid) trees refusal
    with ⟨granted, eq⟩ | ⟨held, eq⟩ | ⟨-, -, eq⟩
  · rw [eq]
    obtain ⟨free, holder⟩ := lockRow_ok granted
    refine .locked iTable rowid rfl granted free holder ?_ ?_ ?_ ?_
    all_goals rw [System.setTrans_self]
    · exact writes
    · exact inserts
  · rw [eq]
    obtain ⟨mine, locks⟩ := lockRow_done held
    have own : ∀ {t row}, t = iTable ∧ row = rowid → s.holder t row = some conn.1 := by
      rintro t row ⟨rfl, rfl⟩
      exact mine
    refine .kept (fun t row => ?_) ?_ ?_ [] (fun _ _ member => nomatch member) ?_ ?_
    · change (s.lockRow conn iTable rowid).2.rows.holder t row = _
      rw [locks]
      rfl
    all_goals rw [System.setTrans_self]
    · exact fun t row after => (writes t row after).imp_right own
    · exact fun t row after => (inserts t row after).imp_right own
    · rfl
  · rw [eq]
    exact .of_same rfl rfl

/-- A call that locks an index record leaves the rows alone. -/
theorem rowStep_lockIndex {alloc : PsmAlloc} {key : Record} {refusal : Rc → Rc}
    (tables : trees.tables = (s.trans conn).trees.tables) :
    RowStep request taken conn s (s.afterLock conn (s.lockIndex conn alloc iTable key)
      (.index iTable key) trees refusal).2 := by
  obtain ⟨written, indexes⟩ := trees
  obtain rfl : written = _ := tables
  rcases s.afterLock_cases conn (s.lockIndex conn alloc iTable key) (.index iTable key)
    ⟨(s.trans conn).trees.tables, indexes⟩ refusal with ⟨-, eq⟩ | ⟨-, eq⟩ | ⟨-, -, eq⟩
  · rw [eq]
    refine .kept (fun _ _ => rfl) ?_ ?_ [.index iTable key] (fun t row => by simp) ?_ ?_
    all_goals rw [System.setTrans_self]
    · exact fun _ _ => Or.inl
    · exact fun _ _ => Or.inl
    · rfl
  · rw [eq]
    refine .kept (fun _ _ => rfl) ?_ ?_ [] (fun _ _ member => nomatch member) ?_ ?_
    all_goals rw [System.setTrans_self]
    · exact fun _ _ => Or.inl
    · exact fun _ _ => Or.inl
    · rfl
  · rw [eq]
    exact .of_same rfl rfl

/-- An insertion locks its row. -/
theorem rowStep_insertTable (append shared generated : Bool) (data : Data) :
    RowStep (some (iTable, rowid)) taken conn s
      (s.sqlite3TransBtreeInsertTable conn iTable append shared generated rowid data).2 := by
  apply rowStep_lock
  · apply Trees.setTable_forall (P := Pending.Writes)
    intro row after
    exact (Pending.insert_writes after).symm.imp_right fun same => (Std.compare_eq_iff_eq.1 same).symm
  · apply Trees.setTable_forall (P := fun pending row => row ∈ pending.ins)
    intro row after
    exact (Pending.mem_insert_ins.1 after).symm.imp_right fun same =>
      (Std.compare_eq_iff_eq.1 same).symm

/-- A deletion of a row of the shared tree locks it. -/
theorem rowStep_deleteShared :
    RowStep (some (iTable, rowid)) taken conn s
      (s.sqlite3TransBtreeDeleteTable conn iTable false rowid).2 := by
  apply rowStep_lock
  · apply Trees.setTable_forall (P := Pending.Writes)
    intro row after
    exact (Pending.delete_writes after).symm.imp_right fun same => (Std.compare_eq_iff_eq.1 same).symm
  · apply Trees.setTable_forall (P := fun pending row => row ∈ pending.ins)
    exact fun row after => Or.inl after

/-- A row that is taken back is in neither tree, or deleted. -/
theorem Trees.setTable_takeBack {row : Int}
    (writes : (trees.setTable iTable ((trees.tables iTable).takeBack rowid)).WritesRow t row) :
    trees.WritesRow t row ∧ (t = iTable → row = rowid → rowid ∈ (trees.tables iTable).del) := by
  unfold Trees.WritesRow at writes ⊢
  rw [setTable_tables] at writes
  by_cases same : t = iTable
  · subst same
    rw [if_pos rfl] at writes
    rcases writes with inserted | deleted
    · obtain ⟨apart, inside⟩ := Pending.mem_takeBack_ins.1 inserted
      refine ⟨Or.inl inside, fun _ same => ?_⟩
      exact absurd (Std.compare_eq_iff_eq.2 same.symm) apart
    · exact ⟨Or.inr deleted, fun _ same => same ▸ deleted⟩
  · rw [if_neg same] at writes
    exact ⟨writes, fun here => absurd here same⟩

/-- Taking a row back inserts none. -/
theorem Trees.setTable_takeBack_inserts {row : Int}
    (inserts : (trees.setTable iTable ((trees.tables iTable).takeBack rowid)).InsertsRow t row) :
    trees.InsertsRow t row := by
  unfold Trees.InsertsRow at inserts ⊢
  rw [setTable_tables] at inserts
  by_cases same : t = iTable
  · subst same
    rw [if_pos rfl] at inserts
    exact (Pending.mem_takeBack_ins.1 inserts).2
  · rwa [if_neg same] at inserts

/-- Taking a row back unlocks it unless it is deleted. -/
theorem rowStep_takeBack (inserted : (s.trans conn).trees.InsertsRow iTable rowid) :
    RowStep request (some (iTable, rowid)) conn s
      (s.sqlite3TransBtreeDeleteTable conn iTable true rowid).2 := by
  unfold System.sqlite3TransBtreeDeleteTable
  simp only [if_true]
  by_cases deleted : rowid ∈ ((s.trans conn).trees.tables iTable).del
  · rw [if_pos (ExtTreeMap.contains_iff_mem.2 deleted)]
    refine .kept (fun _ _ => rfl) ?_ ?_ [] (fun _ _ member => nomatch member) ?_ ?_
    all_goals rw [System.setTrans_self]
    · exact fun t row after => Or.inl (Trees.setTable_takeBack after).1
    · exact fun t row after => Or.inl (Trees.setTable_takeBack_inserts after)
    · rfl
  · rw [if_neg fun contains => deleted (ExtTreeMap.contains_iff_mem.1 contains)]
    refine .unlocked iTable rowid rfl deleted inserted
      (fun t row => RowLockTable.unlockRecord_holder) ?_ ?_ ?_ ?_
    all_goals rw [System.setTrans_self]
    · intro t row after
      obtain ⟨before, kept⟩ := Trees.setTable_takeBack after
      exact ⟨before, fun same => deleted (kept same.1 same.2)⟩
    · exact fun t row after => Trees.setTable_takeBack_inserts after

/-- A deletion in an index leaves the rows alone. -/
theorem rowStep_deleteIndex (alloc : PsmAlloc) (transIsUsed : Bool) (key : Record) :
    RowStep request taken conn s
      (s.sqlite3TransBtreeDeleteIndex conn alloc iTable transIsUsed key).2 := by
  unfold System.sqlite3TransBtreeDeleteIndex
  cases transIsUsed with
  | true =>
    refine .kept (fun _ _ => rfl) ?_ ?_ [] (fun _ _ member => nomatch member) ?_ ?_
    all_goals simp only [if_true, System.setTrans_self]
    · exact fun _ _ => Or.inl
    · exact fun _ _ => Or.inl
    · rfl
  | false => exact rowStep_lockIndex rfl

/-- The end of a savepoint. -/
theorem rowStep_endSavepoint (aligned : Aligned (s.trans conn)) (op : SavepointOp)
    (iSavepoint : Int) :
    RowStep request taken conn s (s.sqlite3TransBtreeSavepoint conn op iSavepoint) := by
  unfold System.sqlite3TransBtreeSavepoint
  dsimp only
  cases found : System.savedAt (s.trans conn).saved iSavepoint with
  | none => exact .of_same rfl rfl
  | some point =>
    obtain ⟨trees, below⟩ := point
    obtain ⟨position, lower, target, -, suffix, -⟩ :=
      target_of_savedAt aligned.points (fun _ _ same => same) found
    cases op with
    | release =>
      refine .released iSavepoint trees position lower below found target (fun t row => ?_) ?_
      · simp only [rowlockSavepoint_release target]
        rfl
      · simp only [rowlockSavepoint_release target, System.setTrans_self]
        rfl
    | rollback =>
      obtain ⟨newer, older, history, rfl, ended⟩ := aligned.rolledBack target suffix s.locks
      simp only [ended]
      refine .rolledBack newer older iSavepoint trees lower below found target history
        (fun t row member => ?_) (fun t row outside => ?_) System.setTrans_self
      · exact (foldl_undoRecord_holder newer).1 member
      · exact (foldl_undoRecord_holder newer).2 outside

/-- The creation of a savepoint. -/
theorem rowStep_savepoint (aligned : Aligned (s.trans conn)) :
    RowStep request taken conn s (s.savepoint conn) := by
  unfold System.savepoint
  simp only [aligned.create]
  refine .opened (fun _ _ => rfl) ?_ ?_ ?_
  all_goals rw [System.setTrans_self]

/-- The end of a transaction. -/
theorem rowStep_finish (tables : RootPage → ExtTreeMap Int Data)
    (indexes : (t : RootPage) → ExtTreeMap Record Unit (layout.cmp t)) :
    RowStep request taken conn s
      ({ s with tables := tables, indexes := indexes }.sqlite3TransBtreeRollback conn) :=
  .finished (fun _ _ => RowLockTable.unlockRecordProc_holder conn.2.1 conn.2.2) System.setTrans_self

/-- What any step does to the rows. -/
theorem step_rowStep (action : Action Record Data) (aligned : Aligned (s.trans action.conn)) :
    RowStep action.requestedRow action.takenRow action.conn s (step s action) := by
  unfold step Action.perform
  cases action with
  | insertTable => exact rowStep_insertTable _ _ _ _
  | deleteTable conn iTable transIsUsed rowid =>
    cases transIsUsed with
    | true =>
      simp only [if_true]
      split_ifs with stands
      · exact rowStep_takeBack (ExtTreeMap.contains_iff_mem.1 stands)
      · exact .of_same rfl rfl
    | false =>
      simp only [Bool.false_eq_true, if_false]
      split_ifs
      · exact rowStep_deleteShared
      · exact .of_same rfl rfl
  | insertIndex => exact rowStep_lockIndex rfl
  | deleteIndex conn alloc iTable transIsUsed key =>
    dsimp only
    generalize (if transIsUsed = true then _ else _) = stands
    cases stands with
    | none => exact .of_same rfl rfl
    | some record => exact rowStep_deleteIndex alloc transIsUsed record
  | createIndex => exact .of_same rfl rfl
  | savepoint => exact rowStep_savepoint aligned
  | endSavepoint => exact rowStep_endSavepoint aligned _ _
  | commit | rollback => exact rowStep_finish _ _

/-- Savepoints stay aligned. -/
theorem RowStep.aligned (rowStep : RowStep request taken conn s s') (aligned : Aligned (s.trans conn)) :
    Aligned (s'.trans conn) := by
  have longer : ∀ (new : List (RowRecord Record)), (s'.trans conn).lockSavepoint =
      ⟨new ++ (s.trans conn).history, (s.trans conn).lockSavepoint.pSavepoints⟩ →
      (s'.trans conn).saved = (s.trans conn).saved → Aligned (s'.trans conn) := by
    intro new log saved
    obtain ⟨numbered, points, within, sorted⟩ := aligned
    refine ⟨saved ▸ numbered, ?_, ?_, ?_⟩
    · rw [log, saved]
      exact points
    · unfold Transaction.history
      rw [log]
      intro entry member
      have old := within entry member
      rw [List.length_append]
      omega
    · rw [log]
      exact sorted
  cases rowStep with
  | kept _ _ _ new _ log saved => exact longer new log saved
  | locked iTable rowid _ _ _ _ _ _ log saved => exact longer [.record iTable rowid] log saved
  | unlocked _ _ _ _ _ _ _ _ log saved => exact longer [] log saved
  | opened _ _ log saved =>
    obtain ⟨numbered, points, within, sorted⟩ := aligned
    refine ⟨?_, ?_, ?_, ?_⟩
    · rw [saved]
      exact ⟨rfl, numbered⟩
    · rw [log, saved]
      exact .cons rfl points
    · unfold Transaction.history
      rw [log]
      exact List.forall_mem_cons.2 ⟨Nat.le_refl _, within⟩
    · rw [log]
      exact List.pairwise_cons.2 ⟨within, sorted⟩
  | rolledBack newer older iSavepoint trees lower below found position history _ _ trans =>
    obtain ⟨_, _, target, points, suffix, suffix'⟩ :=
      target_of_savedAt aligned.points (fun _ _ same => same) found
    cases target.symm.trans position
    have sorted := aligned.sorted.sublist suffix.sublist
    rw [trans]
    refine ⟨aligned.numbered.suffix suffix', points, ?_, sorted⟩
    exact List.forall_mem_cons.2 ⟨Nat.le_refl _, (List.pairwise_cons.1 sorted).1⟩
  | released iSavepoint trees place lower below found position _ trans =>
    obtain ⟨_, _, target, points, suffix, suffix'⟩ :=
      target_of_savedAt aligned.points (fun _ _ same => same) found
    cases target.symm.trans position
    have shorter := (List.suffix_cons _ _).trans suffix
    rw [trans]
    refine ⟨(aligned.numbered.suffix suffix').2, (List.forall₂_cons.1 points).2, ?_, ?_⟩
    · exact fun entry member => aligned.within entry (shorter.subset member)
    · exact aligned.sorted.sublist shorter.sublist
  | finished _ trans =>
    rw [trans]
    exact ⟨trivial, .nil, (fun _ member => nomatch member), List.Pairwise.nil⟩

/-- Every transaction is aligned. -/
def System.Aligned (s : System layout Data) : Prop := ∀ conn, Trans.Aligned (s.trans conn)

/-- Before the first step there are no savepoints. -/
theorem init_aligned (tables : RootPage → ExtTreeMap Int Data)
    (indexes : (t : RootPage) → ExtTreeMap Record Unit (layout.cmp t)) :
    (System.init tables indexes).Aligned :=
  fun _ => ⟨trivial, .nil, (fun _ member => nomatch member), List.Pairwise.nil⟩

/-- A step keeps every transaction aligned. -/
theorem step_aligned (action : Action Record Data) (aligned : s.Aligned) :
    (step s action).Aligned := by
  intro conn
  by_cases mine : conn = action.conn
  · rw [mine]
    exact (step_rowStep action (aligned action.conn)).aligned (aligned action.conn)
  · rw [step_others s action mine]
    exact aligned conn

/-- No transaction has a savepoint. -/
def System.NoSavepoint (s : System layout Data) : Prop :=
  ∀ conn, (s.trans conn).saved = []

/-- Without a new savepoint there is none. -/
theorem System.NoSavepoint.step (unsaved : s.NoSavepoint) (action : Action Record Data)
    (plain : ∀ conn, action ≠ .savepoint conn) : (Trans.step s action).NoSavepoint := by
  intro conn
  obtain ⟨trans, eq, none⟩ := step_trans s action
  rw [eq]
  by_cases same : conn = action.conn
  · rw [same, update_self, none plain (unsaved action.conn)]
  · rw [update_of_ne same, unsaved conn]

end SQLumDash.Trans
