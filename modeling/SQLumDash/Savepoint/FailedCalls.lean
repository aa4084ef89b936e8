import SQLumDash.Savepoint.RowCalls

/-!
# Locks after the rollback of a failed statement

The rollback releases the locks that the history names. A lock that was granted when there was no
memory for its record stays. Where every lock is recorded, the rollback leaves no lock that was not
there before.
-/

namespace SQLumDash.Savepoint

open Ipc Psm Hash Runs

variable {Key : Type} {cfg : Config Key} {conn : Conn} {s s' : TransState Key}
  {newer new : List (RowLockHistory Key)} {history : RowLockHistory Key} {t iTable : RootPage}
  {row rowid : Int} {env : TransEnv Key}

section Rows

variable {start now : RowArea}

/-- The connection holds the lock on a row. -/
def HoldsRow (cfg : Config Key) (conn : Conn) (rows : RowArea) (t : RootPage) (rowid : Int) : Prop :=
  rows.holder cfg.row t.1 rowid = some conn.1

instance (rows : RowArea) : Decidable (HoldsRow cfg conn rows t rowid) :=
  inferInstanceAs (Decidable (_ = _))

/-- A row held after an unlock was held before. -/
theorem holdsRow_of_unlock (lawful : now.Lawful cfg.row)
    (held : HoldsRow cfg conn (sqlite3rowlockIpcUnlockRecord cfg.row now iTable.1 rowid) t row) :
    HoldsRow cfg conn now t row ∧ ¬ (t = iTable ∧ row = rowid) := by
  have holder : (sqlite3rowlockIpcUnlockRecord cfg.row now iTable.1 rowid).holder cfg.row t.1 row =
      if t = iTable ∧ row = rowid then none else now.holder cfg.row t.1 row := by
    let locks : RowLockTable cfg.row := ⟨now, lawful⟩
    show (locks.unlockRecord iTable rowid).holder t row = _
    exact RowLockTable.unlockRecord_holder
  unfold HoldsRow at held ⊢
  rw [holder] at held
  split_ifs at held with here
  exact ⟨held, here⟩

/-- Rows were held at the savepoint or are recorded since. -/
structure RowsCovered (cfg : Config Key) (conn : Conn) (start : RowArea)
    (newer : List (RowLockHistory Key)) (now : RowArea) : Prop where
  lawful : now.Lawful cfg.row
  covered : ∀ t rowid, HoldsRow cfg conn now t rowid →
    HoldsRow cfg conn start t rowid ∨ (RowRecord.record t rowid).history ∈ newer

/-- Nothing happened. -/
theorem RowsCovered.refl (lawful : start.Lawful cfg.row) : RowsCovered cfg conn start [] start :=
  ⟨lawful, fun _ _ held => Or.inl held⟩

section

variable (rows : RowsCovered cfg conn start newer now)

include rows

/-- More records cover as well. -/
theorem RowsCovered.more (new : List (RowLockHistory Key)) :
    RowsCovered cfg conn start (new ++ newer) now where
  lawful := rows.lawful
  covered t rowid held := (rows.covered t rowid held).imp_right (List.mem_append_right new)

/-- An unlock. -/
theorem RowsCovered.unlock (iTable : RootPage) (rowid : Int) :
    RowsCovered cfg conn start newer
      (sqlite3rowlockIpcUnlockRecord cfg.row now iTable.1 rowid) where
  lawful := RowLockTable.unlock_lawful ⟨now, rows.lawful⟩ iTable rowid
  covered t row held := rows.covered t row (holdsRow_of_unlock rows.lawful held).1

/-- A row lock that is granted and recorded is covered. -/
theorem RowsCovered.granted
    (granted : (sqlite3rowlockIpcLockRecord cfg.row conn.1 now iTable.1 rowid).1 = .ok) :
    RowsCovered cfg conn start ((RowRecord.record iTable rowid).history :: newer)
      (sqlite3rowlockIpcLockRecord cfg.row conn.1 now iTable.1 rowid).2 where
  lawful := (rows.lawful.lock conn.1 iTable.2 rowid).1
  covered t row held := by
    have holder : (sqlite3rowlockIpcLockRecord cfg.row conn.1 now iTable.1 rowid).2.holder cfg.row
        t.1 row = if t = iTable ∧ row = rowid then some conn.1 else now.holder cfg.row t.1 row := by
      let locks : RowLockTable cfg.row := ⟨now, rows.lawful⟩
      show (locks.lockRecord conn.1 iTable rowid).2.holder t row = _
      exact RowLockTable.lockRecord_holder granted
    unfold HoldsRow at held
    rw [holder] at held
    split_ifs at held with here
    · rw [here.1, here.2]
      exact Or.inr List.mem_cons_self
    · exact (rows.covered t row held).imp_right (List.mem_cons_of_mem _)

end

/-- A row lock that is not granted changes nothing. -/
theorem lockRecord_unchanged (lawful : now.Lawful cfg.row)
    (refused : (sqlite3rowlockIpcLockRecord cfg.row conn.1 now iTable.1 rowid).1 ≠ .ok) :
    (sqlite3rowlockIpcLockRecord cfg.row conn.1 now iTable.1 rowid).2 = now := by
  let locks : RowLockTable cfg.row := ⟨now, lawful⟩
  have same : (locks.lockRecord conn.1 iTable rowid).2 = locks :=
    RowLockTable.lockRecord_refused refused
  exact congrArg RowLockTable.area same

/-- Only the record of a row unlocks one. -/
theorem undoHistory_rows : (undoHistory cfg conn env history).stores.rows =
    if history.type = .record then
      sqlite3rowlockIpcUnlockRecord cfg.row env.stores.rows history.iTable.1 history.n
    else env.stores.rows := by
  unfold undoHistory
  cases history.type with
  | record => rfl
  | index => cases history.p <;> rfl
  | tableClear => cases env.rootPages history.iTable <;> rfl
  | newTable | tableLock | newIndex => rfl

/-- The undo of the newest record. -/
theorem RowsCovered.undo (rows : RowsCovered cfg conn start (history :: newer) env.stores.rows) :
    RowsCovered cfg conn start newer (undoHistory cfg conn env history).stores.rows := by
  rw [undoHistory_rows]
  split_ifs with type
  · refine ⟨(rows.unlock history.iTable history.n).lawful, fun t row held => ?_⟩
    obtain ⟨before, other⟩ := holdsRow_of_unlock rows.lawful held
    refine (rows.covered t row before).imp_right fun member => ?_
    rcases List.mem_cons.1 member with here | inside
    · rw [← here] at other
      exact absurd ⟨rfl, rfl⟩ other
    · exact inside
  · refine ⟨rows.lawful, fun t row held => (rows.covered t row held).imp_right fun member => ?_⟩
    rcases List.mem_cons.1 member with here | inside
    · rw [← here] at type
      exact absurd rfl type
    · exact inside

end Rows

section Indexes

variable {cls : RecordClass Key} {start now now' : PsmList Key} {elem : HashElem Key Handle}
  {key : Key}

/-- An entry equal to itself and to no other of its index. -/
structure Alone (cls : RecordClass Key) (now : PsmList Key) (t : RootPage)
    (elem : HashElem Key Handle) : Prop where
  equal : cls.recordComparator t elem.key elem.key = true
  rest : ∃ rest, now.entries t = elem ::ₘ rest ∧
    ∀ other ∈ rest, cls.recordComparator t other.key elem.key = false

/-- An unlock that leaves the entry leaves it alone. -/
theorem Alone.unlock (alone : Alone cls now t elem) (outcome : UnlockOutcome cls now iTable key now')
    (member : elem ∈ now'.entries t) : Alone cls now' t elem := by
  cases outcome with
  | absent => exact alone
  | removed elem' sees tables here others =>
    by_cases same : t = iTable
    · subst same
      obtain ⟨equal, rest, split, differ⟩ := alone
      obtain ⟨rest', split'⟩ := Multiset.exists_cons_of_mem member
      refine ⟨equal, rest', split', fun other inside => differ other ?_⟩
      rw [here, split', Multiset.cons_swap] at split
      rw [← (Multiset.cons_inj_right elem).1 split]
      exact Multiset.mem_cons_of_mem inside
    · obtain ⟨equal, rest, split, differ⟩ := alone
      exact ⟨equal, rest, (others t same).trans split, differ⟩

/-- The unlock of its own record removes the entry. -/
theorem Alone.removed (alone : Alone cls now t elem)
    (outcome : UnlockOutcome cls now t elem.key now') : elem ∉ now'.entries t := by
  obtain ⟨equal, rest, split, differ⟩ := alone
  cases outcome with
  | absent free =>
    have member : elem ∈ now.entries t := by
      rw [split]
      exact Multiset.mem_cons_self _ _
    exact absurd ⟨member, fun _ => rfl, equal⟩ (free elem)
  | removed elem' sees tables here others =>
    have found := sees.member
    rw [split] at found
    rcases Multiset.mem_cons.1 found with rfl | inside
    · rw [here] at split
      rw [(Multiset.cons_inj_right elem').1 split]
      intro again
      rw [differ elem' again] at equal
      cases equal
    · have seen := sees.equal
      rw [differ elem' inside] at seen
      cases seen

/-- A record equal to itself and to no locked one. -/
def Distinct (cls : RecordClass Key) (now : PsmList Key) (t : RootPage) (key : Key) : Prop :=
  cls.recordComparator t key key = true ∧ ∀ elem ∈ now.entries t,
    cls.recordComparator t elem.key key = false ∧ cls.recordComparator t key elem.key = false

instance : Decidable (Distinct cls now t key) := inferInstanceAs (Decidable (_ ∧ _))

/-- An unlock only removes entries. -/
theorem mem_of_unlock (outcome : UnlockOutcome cls now iTable key now')
    (member : elem ∈ now'.entries t) : elem ∈ now.entries t := by
  cases outcome with
  | absent => exact member
  | removed elem' sees tables here others =>
    by_cases same : t = iTable
    · subst same
      rw [here]
      exact Multiset.mem_cons_of_mem member
    · rwa [others t same] at member

/-- Index entries were there at the savepoint, or are recorded since and found by the undo. -/
structure IndexesCovered (cfg : Config Key) (conn : Conn) (start : PsmList Key)
    (newer : List (RowLockHistory Key)) (now : PsmList Key) : Prop where
  lawful : now.Lawful cfg.record
  covered : ∀ t, ∀ elem ∈ now.entries t, elem.data = conn.1 →
    elem ∈ start.entries t ∨
      (RowRecord.index t elem.key).history ∈ newer ∧ Alone cfg.record now t elem

/-- Nothing happened. -/
theorem IndexesCovered.refl (lawful : start.Lawful cfg.record) :
    IndexesCovered cfg conn start [] start :=
  ⟨lawful, fun _ _ member _ => Or.inl member⟩

section

variable (indexes : IndexesCovered cfg conn start newer now)

include indexes

/-- More records cover as well. -/
theorem IndexesCovered.more (new : List (RowLockHistory Key)) :
    IndexesCovered cfg conn start (new ++ newer) now where
  lawful := indexes.lawful
  covered t elem member own := (indexes.covered t elem member own).imp_right
    (And.imp_left (List.mem_append_right new))

/-- A change that leaves the entries leaves them covered. -/
theorem IndexesCovered.kept
    (lawful : now'.Lawful cfg.record) (same : ∀ t, now'.entries t = now.entries t) :
    IndexesCovered cfg conn start newer now' where
  lawful := lawful
  covered t elem member own := by
    rw [same t] at member
    refine (indexes.covered t elem member own).imp_right (And.imp_right fun alone => ?_)
    obtain ⟨equal, rest, split, differ⟩ := alone
    exact ⟨equal, rest, (same t).trans split, differ⟩

/-- An unlock. -/
theorem IndexesCovered.unlock (iTable : RootPage) (key : Key) :
    IndexesCovered cfg conn start newer
      (sqlite3rowlockPsmUnlockRecord cfg.record now iTable key) := by
  obtain ⟨lawful, outcome⟩ := indexes.lawful.unlockRecord iTable key
  refine ⟨lawful, fun t elem member own => ?_⟩
  have before := indexes.covered t elem (mem_of_unlock outcome member) own
  exact before.imp_right (And.imp_right fun alone => alone.unlock outcome member)

/-- A lock on a distinct record that is recorded. -/
theorem IndexesCovered.granted {alloc : PsmAlloc}
    (granted : (sqlite3rowlockPsmLockRecord cfg.record alloc conn.1 now iTable key).1 = .ok)
    (distinct : Distinct cfg.record now iTable key) :
    IndexesCovered cfg conn start ((RowRecord.index iTable key).history :: newer)
      (sqlite3rowlockPsmLockRecord cfg.record alloc conn.1 now iTable key).2 := by
  obtain ⟨lawful, outcome⟩ := indexes.lawful.lockRecord alloc conn.1 iTable key
  generalize sqlite3rowlockPsmLockRecord cfg.record alloc conn.1 now iTable key = result at *
  cases outcome with
  | unknown | nomem => cases granted
  | held elem sees =>
    split_ifs at granted
  | lost => exact indexes.more [_]
  | added created free tables entries =>
    refine ⟨lawful, fun t elem member own => ?_⟩
    have older := (indexes.more [(RowRecord.index iTable key).history]).covered t elem
    have split := entries t
    by_cases same : t = iTable
    · subst same
      rw [if_pos rfl] at split
      rw [split] at member
      rcases Multiset.mem_cons.1 member with rfl | inside
      · exact Or.inr ⟨List.mem_cons_self, distinct.1, _, split,
          fun other inside => (distinct.2 other inside).1⟩
      · refine (older inside own).imp_right ?_
        rintro ⟨recorded, equal, rest, split', differ⟩
        refine ⟨recorded, equal, ⟨conn.1, key⟩ ::ₘ rest, ?_, ?_⟩
        · rw [split, split', Multiset.cons_swap]
        · intro other member'
          rcases Multiset.mem_cons.1 member' with rfl | inside'
          · exact (distinct.2 elem inside).2
          · exact differ other inside'
    · rw [if_neg same] at split
      rw [split] at member
      refine (older member own).imp_right ?_
      rintro ⟨recorded, equal, rest, split', differ⟩
      exact ⟨recorded, equal, rest, split.trans split', differ⟩

end

/-- A lock that is not granted changes nothing. -/
theorem psmLockRecord_unchanged {alloc : PsmAlloc} (lawful : now.Lawful cfg.record)
    (refused : (sqlite3rowlockPsmLockRecord cfg.record alloc conn.1 now iTable key).1 ≠ .ok) :
    (sqlite3rowlockPsmLockRecord cfg.record alloc conn.1 now iTable key).2 = now := by
  have outcome := (lawful.lockRecord alloc conn.1 iTable key).2
  generalize sqlite3rowlockPsmLockRecord cfg.record alloc conn.1 now iTable key = result at *
  cases outcome with
  | unknown | held | nomem | lost => rfl
  | added => exact absurd rfl refused

/-- An index is dropped only from a list that has none. -/
theorem dropTable_eq (now : PsmList Key) (iTable : RootPage) :
    sqlite3rowlockPsmDropTable now iTable = now := by
  unfold sqlite3rowlockPsmDropTable
  split_ifs with empty
  · have none_ := List.length_eq_zero_iff.1 empty
    obtain ⟨tables, hash⟩ := now
    dsimp only at none_
    rw [none_]
    rfl
  · rfl

/-- The undo of a record, as far as the index locks go. -/
theorem undoHistory_indexes (cfg : Config Key) (conn : Conn) (env : TransEnv Key)
    (history : RowLockHistory Key) :
    (∃ key, history = ⟨.index, history.iTable, history.n, some key, history.prev⟩ ∧
      (undoHistory cfg conn env history).stores.indexes =
        sqlite3rowlockPsmUnlockRecord cfg.record env.stores.indexes history.iTable key) ∨
    (∀ t key, (RowRecord.index t key).history ≠ history) ∧
      (undoHistory cfg conn env history).stores.indexes = env.stores.indexes := by
  obtain ⟨type, table, n, p, prev⟩ := history
  cases type with
  | index =>
    cases p with
    | none => exact Or.inr ⟨nofun, rfl⟩
    | some key => exact Or.inl ⟨key, rfl, rfl⟩
  | newIndex => exact Or.inr ⟨nofun, dropTable_eq _ _⟩
  | tableClear =>
    refine Or.inr ⟨nofun, ?_⟩
    unfold undoHistory
    cases env.rootPages table <;> rfl
  | record | newTable | tableLock => exact Or.inr ⟨nofun, rfl⟩

/-- The undo of the newest record. -/
theorem IndexesCovered.undo
    (indexes : IndexesCovered cfg conn start (history :: newer) env.stores.indexes) :
    IndexesCovered cfg conn start newer (undoHistory cfg conn env history).stores.indexes := by
  rcases undoHistory_indexes cfg conn env history with ⟨key, record, undone⟩ | ⟨other, same⟩
  · rw [undone]
    obtain ⟨lawful, outcome⟩ := indexes.lawful.unlockRecord history.iTable key
    refine ⟨lawful, fun t elem member own => ?_⟩
    refine (indexes.covered t elem (mem_of_unlock outcome member) own).imp_right ?_
    rintro ⟨recorded, alone⟩
    rcases List.mem_cons.1 recorded with here | inside
    · -- The record names this entry, so its undo has removed it.
      rw [record] at here
      obtain ⟨-, table, -, named, -⟩ := RowLockHistory.mk.inj here
      rw [← table, ← Option.some.inj named] at outcome member
      exact absurd member (alone.removed outcome)
    · exact ⟨inside, alone.unlock outcome member⟩
  · rw [same]
    refine ⟨indexes.lawful, fun t elem member own => ?_⟩
    refine (indexes.covered t elem member own).imp_right (And.imp_left fun recorded => ?_)
    exact (List.mem_cons.1 recorded).resolve_left (other t elem.key)

end Indexes

/-- The history covers the row locks and index locks. -/
structure Covered (cfg : Config Key) (conn : Conn) (start : Stores Key)
    (newer : List (RowLockHistory Key)) (now : Stores Key) : Prop where
  rows : RowsCovered cfg conn start.rows newer now.rows
  indexes : IndexesCovered cfg conn start.indexes newer now.indexes

/-- The undo of all records. -/
theorem Covered.undone {start : Stores Key} (covered : Covered cfg conn start newer env.stores) :
    Covered cfg conn start [] (newer.foldl (undoHistory cfg conn) env).stores :=
  undone_of_covers (C := fun newer (env : TransEnv Key) =>
      Covered cfg conn start newer env.stores)
    (fun _ _ _ covered => ⟨covered.rows.undo, covered.indexes.undo⟩) newer covered

/-- What one call of a statement does. -/
structure StmtEffect (cfg : Config Key) (conn : Conn) (s s' : TransState Key)
    (new : List (RowLockHistory Key)) : Prop where
  pages : Effect s s' new
  locks : LockEffect cfg conn s s' new
  covers : ∀ {start : Stores Key} {newer : List (RowLockHistory Key)},
    Covered cfg conn start newer s.env.stores →
      Covered cfg conn start (new ++ newer) s'.env.stores

/-- A granted lock is recorded, and an index record distinct from those that are locked. -/
def RowTarget.Recorded (cfg : Config Key) (conn : Conn) (s : TransState Key) (calls : RowCalls) :
    RowTarget Key → Prop
  | .table iTable rowid =>
    (sqlite3rowlockIpcLockRecord cfg.row conn.1 s.env.stores.rows iTable.1 rowid).1 = .ok →
      calls.history = true
  | .unique iTable key =>
    (sqlite3rowlockPsmLockRecord cfg.record calls.psm conn.1 s.env.stores.indexes iTable key).1 =
      .ok → calls.history = true ∧ Distinct cfg.record s.env.stores.indexes iTable key
  | .index _ _ => True

instance (calls : RowCalls) (target : RowTarget Key) :
    Decidable (target.Recorded cfg conn s calls) :=
  match target with
  | .table _ _ => inferInstanceAs (Decidable (_ → _))
  | .unique _ _ => inferInstanceAs (Decidable (_ → _))
  | .index _ _ => inferInstanceAs (Decidable True)

/-- What is refused changes nothing. -/
theorem afterRequest_refused {memory : Bool} {answer : Rc} {refusal : Rc → Rc}
    {record : RowRecord Key} (refused : answer ≠ .ok) :
    (afterRequest memory answer refusal record s).2 = s := by
  cases answer with
  | ok => exact absurd rfl refused
  | _ => rfl

/-- Every lock that a call newly takes is recorded: there is memory, and an index record is
distinct. -/
def Recorded (cfg : Config Key) (conn : Conn) (s : TransState Key) : StmtCall Key → Prop
  | .insert target calls =>
    (calls.pCurIns && calls.before && !target.exempt calls.sequence) = true →
      target.Recorded cfg conn s calls
  | .delete target calls =>
    (calls.pCurIns && calls.before && !calls.transIsUsed) = true →
      target.Recorded cfg conn s calls
  | .lockTable iTable eLock memory => RaisesLevel cfg conn s iTable eLock → memory = true
  | .cursor _ _ _ => True
  | .clearTable iTable calls =>
    RaisesLevel cfg conn s iTable .writeEx → calls.lockHistory = true

instance : DecidableRel (Recorded cfg conn) := fun _ call =>
  match call with
  | .insert _ _ => inferInstanceAs (Decidable (_ → _))
  | .delete _ _ => inferInstanceAs (Decidable (_ → _))
  | .lockTable _ _ _ => inferInstanceAs (Decidable (_ → _))
  | .cursor _ _ _ => inferInstanceAs (Decidable True)
  | .clearTable _ _ => inferInstanceAs (Decidable (_ → _))

/-- Other row and index locks, and records of them. -/
def withLocks (s : TransState Key) (rows : RowArea) (indexes : PsmList Key)
    (records : List (RowRecord Key)) : TransState Key :=
  { s with
    env.stores.rows := rows
    env.stores.indexes := indexes
    lockSavepoint.pHistory := records.map RowRecord.history ++ s.lockSavepoint.pHistory }

section Lockable

variable (lockable : Lockable cfg s) (calls : RowCalls) (target : RowTarget Key)

include lockable

/-- A call that changes and records only those. -/
theorem stmtEffect_withLocks {rows : RowArea} {indexes : PsmList Key}
    (records : List (RowRecord Key))
    (covers : ∀ {start : Stores Key} {newer : List (RowLockHistory Key)},
      Covered cfg conn start newer s.env.stores →
        Covered cfg conn start (records.map RowRecord.history ++ newer)
          { s.env.stores with rows := rows, indexes := indexes }) :
    ∃ new, StmtEffect cfg conn s (withLocks s rows indexes records) new := by
  have types : ∀ history ∈ records.map RowRecord.history,
      history.type = .record ∨ history.type = .index := by
    intro history member
    obtain ⟨record, -, rfl⟩ := List.mem_map.1 member
    cases record
    · exact Or.inl rfl
    · exact Or.inr rfl
  refine ⟨records.map RowRecord.history, Quiet.effect ⟨lockable.open_, rfl, rfl, ?_, rfl⟩,
    lockEffect_of_same lockable lockable.open_ rfl rfl ?_, covers⟩
  · apply untouched_of_type
    intro history member
    rcases types history member with type | type <;> rw [type] <;> exact ⟨nofun, nofun⟩
  · intro history member
    rcases types history member with type | type <;> rw [type] <;> exact ⟨nofun, nofun⟩

/-- A call that changes nothing. -/
theorem StmtEffect.idle : ∃ new, StmtEffect cfg conn s s new :=
  stmtEffect_withLocks lockable [] fun covered => covered

/-- The lock of an operation. -/
theorem RowTarget.lock_effect (refusal : Rc → Rc) (recorded : target.Recorded cfg conn s calls) :
    ∃ new, StmtEffect cfg conn s (target.lock cfg conn calls refusal s).2 new := by
  cases target with
  | index => exact StmtEffect.idle lockable
  | table iTable rowid =>
    unfold RowTarget.lock
    dsimp only
    by_cases granted :
        (sqlite3rowlockIpcLockRecord cfg.row conn.1 s.env.stores.rows iTable.1 rowid).1 = .ok
    · rw [granted, recorded granted]
      exact stmtEffect_withLocks lockable [.record iTable rowid] fun covered =>
        ⟨covered.rows.granted granted, covered.indexes.more [_]⟩
    · rw [afterRequest_refused granted]
      refine stmtEffect_withLocks lockable [] fun covered => ⟨?_, covered.indexes⟩
      rw [lockRecord_unchanged covered.rows.lawful granted]
      exact covered.rows
  | unique iTable key =>
    unfold RowTarget.lock
    dsimp only
    by_cases granted : (sqlite3rowlockPsmLockRecord cfg.record calls.psm conn.1
        s.env.stores.indexes iTable key).1 = .ok
    · obtain ⟨memory, distinct⟩ := recorded granted
      rw [granted, memory]
      exact stmtEffect_withLocks lockable [.index iTable key] fun covered =>
        ⟨covered.rows.more [_], covered.indexes.granted granted distinct⟩
    · rw [afterRequest_refused granted]
      refine stmtEffect_withLocks lockable [] fun covered => ⟨covered.rows, ?_⟩
      rw [psmLockRecord_unchanged covered.indexes.lawful granted]
      exact covered.indexes

/-- The lock that an operation gives up. -/
theorem RowTarget.unlock_effect :
    ∃ new, StmtEffect cfg conn s (target.unlock cfg calls s) new := by
  have unlocked : ∀ (iTable : RootPage) (rowid : Int), ∃ new, StmtEffect cfg conn s
      (if calls.inDel then s else
        { s with
          env.stores.rows :=
            sqlite3rowlockIpcUnlockRecord cfg.row s.env.stores.rows iTable.1 rowid }) new := by
    intro iTable rowid
    split_ifs
    · exact StmtEffect.idle lockable
    · exact stmtEffect_withLocks lockable [] fun covered =>
        ⟨covered.rows.unlock iTable rowid, covered.indexes⟩
  cases target with
  | table iTable rowid => exact unlocked iTable rowid
  | index iTable nKey => exact unlocked iTable nKey
  | unique iTable key =>
    exact stmtEffect_withLocks lockable [] fun covered =>
      ⟨covered.rows, covered.indexes.unlock iTable key⟩

/-- An insertion. -/
theorem insert_effect
    (recorded : (calls.pCurIns && calls.before && !target.exempt calls.sequence) = true →
      target.Recorded cfg conn s calls) :
    ∃ new, StmtEffect cfg conn s (sqlite3TransBtreeInsert cfg conn calls s target).2 new := by
  have idle : ∃ new, StmtEffect cfg conn s s new := StmtEffect.idle lockable
  unfold sqlite3TransBtreeInsert
  cases trans : calls.pCurIns with
  | false => exact idle
  | true =>
    cases before : calls.before with
    | false => exact idle
    | true =>
      cases exempt : target.exempt calls.sequence with
      | true => exact idle
      | false =>
        rw [trans, before, exempt] at recorded
        obtain ⟨new, effect⟩ := target.lock_effect lockable calls (rowRefusal calls.generated)
          (recorded rfl)
        refine ⟨new, ?_⟩
        simp only [if_true, Bool.false_eq_true, if_false]
        split_ifs <;> exact effect

/-- A deletion. -/
theorem delete_effect
    (recorded : (calls.pCurIns && calls.before && !calls.transIsUsed) = true →
      target.Recorded cfg conn s calls) :
    ∃ new, StmtEffect cfg conn s (sqlite3TransBtreeDelete cfg conn calls s target).2 new := by
  have idle : ∃ new, StmtEffect cfg conn s s new := StmtEffect.idle lockable
  unfold sqlite3TransBtreeDelete
  cases trans : calls.pCurIns with
  | false => exact idle
  | true =>
    cases before : calls.before with
    | false => exact idle
    | true =>
      cases used : calls.transIsUsed with
      | true => exact target.unlock_effect lockable calls
      | false =>
        rw [trans, before, used] at recorded
        obtain ⟨new, effect⟩ := target.lock_effect lockable calls id (recorded rfl)
        refine ⟨new, ?_⟩
        simp only [if_true, Bool.false_eq_true, if_false]
        split_ifs <;> exact effect

end Lockable

/-- Row locks and index entries stay. -/
structure SameLocks (cfg : Config Key) (stores stores' : Stores Key) : Prop where
  rows : stores'.rows = stores.rows
  indexes : stores.indexes.Lawful cfg.record → stores'.indexes.Lawful cfg.record ∧
    ∀ t, stores'.indexes.entries t = stores.indexes.entries t

/-- Nothing happened. -/
theorem SameLocks.refl (cfg : Config Key) (stores : Stores Key) : SameLocks cfg stores stores :=
  ⟨rfl, fun lawful => ⟨lawful, fun _ => rfl⟩⟩

/-- The locks stay covered. -/
theorem SameLocks.covers {start stores stores' : Stores Key} (same : SameLocks cfg stores stores')
    (covered : Covered cfg conn start newer stores) (new : List (RowLockHistory Key)) :
    Covered cfg conn start (new ++ newer) stores' := by
  obtain ⟨lawful, entries⟩ := same.indexes covered.indexes.lawful
  refine ⟨?_, (covered.indexes.kept lawful entries).more new⟩
  rw [same.rows]
  exact covered.rows.more new

/-- A call on tables and root pages. -/
theorem stmtEffect_of_same (pages : ∃ new, Effect s s' new)
    (locks : ∃ new, LockEffect cfg conn s s' new)
    (same : SameLocks cfg s.env.stores s'.env.stores) : ∃ new, StmtEffect cfg conn s s' new := by
  obtain ⟨new, pages⟩ := pages
  obtain ⟨new', locks⟩ := locks
  obtain rfl : new' = new := List.append_cancel_right (locks.history.symm.trans pages.history)
  exact ⟨new', pages, locks, fun covered => same.covers covered new'⟩

/-- A table lock. -/
theorem lockTable_same (cfg : Config Key) (conn : Conn) (memory : Bool) (s : TransState Key)
    (iTable : RootPage) (eLock : TableLock) : SameLocks cfg s.env.stores
      (sqlite3rowlockIpcLockTableAndAddHistory cfg conn memory s iTable eLock).2.env.stores := by
  unfold sqlite3rowlockIpcLockTableAndAddHistory
  dsimp only
  split_ifs <;> exact ⟨rfl, fun lawful => ⟨lawful, fun _ => rfl⟩⟩

/-- The index space. -/
theorem createIndexSpace_same (cfg : Config Key) (calls : CreateCalls) (s : TransState Key)
    (iTable : RootPage) :
    SameLocks cfg s.env.stores (createIndexSpace calls s iTable).2.env.stores := by
  unfold createIndexSpace
  dsimp only
  split_ifs
  · exact ⟨rfl, fun lawful => lawful.createTable calls.psm iTable⟩
  · exact ⟨rfl, fun lawful => lawful.createTable calls.psm iTable⟩
  · exact .refl cfg _

/-- The creation of the trees. -/
theorem createTable_same (cfg : Config Key) (calls : CreateCalls)
    (started : s.inTransaction = true) (iTable : RootPage) :
    SameLocks cfg s.env.stores (sqlite3TransBtreeCreateTable calls s iTable).2.env.stores := by
  have idle : SameLocks cfg s.env.stores s.env.stores := .refl cfg _
  have created := createIndexSpace_same cfg calls s iTable
  unfold sqlite3TransBtreeCreateTable
  simp only [started, if_true]
  cases calls.iInsTable with
  | none => exact idle
  | some iInsTable =>
    cases calls.iDelTable with
    | none => exact idle
    | some iDelTable =>
      dsimp only
      split_ifs
      · unfold associate
        cases addTransRootPage .. <;> exact created
      · exact created

/-- A cursor. -/
theorem cursor_same (cfg : Config Key) (calls : CreateCalls) (started : s.inTransaction = true)
    (iTable : RootPage) (wrFlag : Bool) :
    SameLocks cfg s.env.stores (transBtreeCursor calls s iTable wrFlag).2.env.stores := by
  have created := createTable_same cfg calls started iTable
  unfold transBtreeCursor
  dsimp only
  split_ifs
  · exact .refl cfg _
  · exact .refl cfg _
  · exact .refl cfg _
  · exact created

/-- The deletion of all rows. -/
theorem clearTable_same (cfg : Config Key) (conn : Conn) (calls : ClearCalls) (s : TransState Key)
    (iTable : RootPage) : SameLocks cfg s.env.stores
      (sqlite3TransBtreeClearTable cfg conn calls s iTable).2.env.stores := by
  have locked := lockTable_same cfg conn calls.lockHistory s iTable .writeEx
  unfold sqlite3TransBtreeClearTable
  dsimp only
  split_ifs
  · split
    · exact locked
    · unfold setDeleteAll
      dsimp only
      split_ifs <;> exact locked
  · exact locked
  · exact locked

/-- What any call of a statement does, whatever it answers. -/
theorem stmtStep_effect (lockable : Lockable cfg s) (call : StmtCall Key)
    (recorded : Recorded cfg conn s call) :
    ∃ new, StmtEffect cfg conn s (stmtStep cfg conn s call) new := by
  cases call with
  | insert target calls => exact insert_effect lockable calls target recorded
  | delete target calls => exact delete_effect lockable calls target recorded
  | lockTable iTable eLock memory =>
    obtain ⟨new, quiet⟩ := lockTable_quiet cfg conn memory lockable.open_ iTable eLock
    exact stmtEffect_of_same ⟨new, quiet.effect⟩
      (lockTable_effect lockable conn iTable eLock recorded)
      (lockTable_same cfg conn memory s iTable eLock)
  | cursor iTable wrFlag calls =>
    exact stmtEffect_of_same (transBtreeCursor_effect lockable.open_ calls iTable wrFlag)
      (cursor_lockEffect lockable calls iTable wrFlag)
      (cursor_same cfg calls lockable.open_ iTable wrFlag)
  | clearTable iTable calls =>
    exact stmtEffect_of_same (clearTable_effect lockable.open_ cfg conn calls iTable)
      (clearTable_lockEffect lockable calls iTable recorded)
      (clearTable_same cfg conn calls s iTable)

/-- What the calls since a savepoint leave to its rollback. -/
structure StmtRun (cfg : Config Key) (conn : Conn) (start now : TransState Key)
    (newer : List (RowLockHistory Key)) : Prop where
  pages : SavepointRun start now newer
  locks : LockRun cfg conn start now newer
  covered : Covered cfg conn start.env.stores newer now.env.stores

/-- Any calls that record their locks. -/
theorem stmtRun (lockable : Lockable cfg s) (rows : s.env.stores.rows.Lawful cfg.row)
    (indexes : s.env.stores.indexes.Lawful cfg.record) {calls : List (StmtCall Key)}
    (recorded : Guarded (stmtStep cfg conn) (Recorded cfg conn) s calls) :
    ∃ newer, StmtRun cfg conn s (run (stmtStep cfg conn) s calls) newer := by
  apply recorded.invariant (P := fun now => ∃ newer, StmtRun cfg conn s now newer)
  · rintro now call ⟨newer, reached⟩ recorded
    obtain ⟨new, effect⟩ := stmtStep_effect reached.locks.lockable call recorded
    exact ⟨new ++ newer, reached.pages.step effect.pages, reached.locks.step effect.locks,
      effect.covers reached.covered⟩
  · exact ⟨[], .refl lockable.open_, .refl lockable, .refl rows, .refl indexes⟩

/-- The locks of a connection are no more than they were. -/
structure NoLarger (cfg : Config Key) (conn : Conn) (start after : Stores Key) : Prop where
  rows : ∀ t rowid, HoldsRow cfg conn after.rows t rowid → HoldsRow cfg conn start.rows t rowid
  indexes : ∀ t, ∀ elem ∈ after.indexes.entries t, elem.data = conn.1 →
    elem ∈ start.indexes.entries t
  tables : ∀ t, (after.tables.level cfg.table conn t).level ≤
    (start.tables.level cfg.table conn t).level

/-- Where the forced request of a table's first record is blocked, the level has not risen. -/
def Lowerable (cfg : Config Key) (conn : Conn) (start now : TransState Key) (t : RootPage) : Prop :=
  ∀ first ∈ ((recordedSince start now).filter (Locks t)).getLast?,
    now.env.stores.tables.Blocked cfg.table conn t (.ofNumber first.prev) →
      (now.env.stores.tables.level cfg.table conn t).level ≤
        (start.env.stores.tables.level cfg.table conn t).level

/-- The table locks are tidy. -/
theorem stores_tidy (cfg : Config Key) (calls : List (StoreCall Key)) :
    (Stores.after cfg calls).tables.Tidy := by
  have both : (Stores.after cfg calls).Lawful cfg ∧ (Stores.after cfg calls).tables.Tidy := by
    apply run_invariant (P := fun stores : Stores Key => stores.Lawful cfg ∧ stores.tables.Tidy)
    · rintro stores call ⟨lawful, tidy⟩
      refine ⟨lawful.perform call, ?_⟩
      cases call with
      | table call => exact (TableArea.perform_tidy lawful.tables tidy call).2
      | _ => exact tidy
    · exact ⟨Stores.after_lawful cfg [], TableArea.after_tidy cfg.table []⟩
  exact both.2

/-- After the rollback to the savepoint of a statement, the connection has no lock that it did not
have at the savepoint, whatever the calls since then answered, if every lock they took was recorded.
-/
theorem rollback_leaves_no_lock (cfg : Config Key) (conn : Conn) (s : TransState Key)
    (earlier : List (StoreCall Key)) (stores : s.env.stores = Stores.after cfg earlier)
    (started : s.inTransaction = true) (iSavepoint : Int) (calls : List (StmtCall Key))
    (recorded : Guarded (stmtStep cfg conn) (Recorded cfg conn) (savepointCreate s iSavepoint) calls)
    (lowerable : ∀ t, Lowerable cfg conn s
      (run (stmtStep cfg conn) (savepointCreate s iSavepoint) calls) t) :
    NoLarger cfg conn s.env.stores (sqlite3TransBtreeSavepoint cfg conn
      (run (stmtStep cfg conn) (savepointCreate s iSavepoint) calls) .rollback
      iSavepoint).env.stores := by
  have lawful : s.env.stores.Lawful cfg := by
    rw [stores]
    exact Stores.after_lawful cfg earlier
  have tidy : s.env.stores.tables.Tidy := by
    rw [stores]
    exact stores_tidy cfg earlier
  have lockable : Lockable cfg (savepointCreate s iSavepoint) := ⟨started, lawful.tables, tidy⟩
  obtain ⟨newer, reached⟩ := stmtRun lockable lawful.rows lawful.indexes recorded
  have undone := reached.covered.undone
  rw [rollback_env cfg conn iSavepoint reached.pages]
  refine ⟨fun t rowid held => ?_, fun t elem member own => ?_, fun t => ?_⟩
  · exact (undone.rows.covered t rowid held).resolve_right (fun member => nomatch member)
  · exact (undone.indexes.covered t elem member own).resolve_right
      (fun recorded => nomatch recorded.1)
  · have low := lowerable t
    rw [Lowerable, recordedSince_eq iSavepoint reached.pages.history] at low
    exact (reached.locks.level_lowered_iff t).2 low

/-- An insertion of row 7. -/
def insertSeven (history trees : Bool) : StmtCall Nat :=
  .insert (.table tableTwo 7) ⟨true, true, false, false, false, false, .all, history, trees⟩

/-- An insertion that is recorded. -/
theorem rollback_leaves_no_lock_insert :
    beganTransaction.env.stores = Stores.after smallConfig [] ∧
    beganTransaction.inTransaction = true ∧
    Guarded (stmtStep smallConfig connA) (Recorded smallConfig connA)
      (savepointCreate beganTransaction 1) [insertSeven true false] ∧
    (∀ t, Lowerable smallConfig connA beganTransaction
      (run (stmtStep smallConfig connA) (savepointCreate beganTransaction 1)
        [insertSeven true false]) t) ∧
    NoLarger smallConfig connA beganTransaction.env.stores
      (sqlite3TransBtreeSavepoint smallConfig connA
        (run (stmtStep smallConfig connA) (savepointCreate beganTransaction 1)
          [insertSeven true false]) .rollback 1).env.stores := by
  have lowerable : ∀ t, Lowerable smallConfig connA beganTransaction
      (run (stmtStep smallConfig connA) (savepointCreate beganTransaction 1)
        [insertSeven true false]) t := by
    intro t first member
    have recorded : recordedSince beganTransaction
        (run (stmtStep smallConfig connA) (savepointCreate beganTransaction 1)
          [insertSeven true false]) = [(RowRecord.record tableTwo 7).history] := by decide
    have types : ∀ history ∈ [(RowRecord.record tableTwo 7 : RowRecord Nat).history],
        history.type ≠ .newTable ∧ history.type ≠ .tableLock := by decide
    rw [recorded, filter_locks_nil types] at member
    cases member
  exact ⟨rfl, rfl, by decide, lowerable, rollback_leaves_no_lock smallConfig connA beganTransaction []
    rfl rfl 1 [insertSeven true false] (by decide) lowerable⟩

/-- An insertion and a table lock that fail for want of memory for the record keep their lock over
the rollback. -/
theorem unrecorded_lock_outlives_rollback :
    (let start := savepointCreate beganTransaction 1
    let failed := (insertSeven false true).perform smallConfig connA start
    failed.1 = .nomem ∧ ¬ HoldsRow smallConfig connA start.env.stores.rows tableTwo 7 ∧
      HoldsRow smallConfig connA (sqlite3TransBtreeSavepoint smallConfig connA failed.2 .rollback
        1).env.stores.rows tableTwo 7) ∧
    (let start := savepointCreate beganTransaction 1
    let failed := (StmtCall.lockTable tableTwo .write false).perform smallConfig connA start
    failed.1 = .nomem ∧
      start.env.stores.tables.level smallConfig.table connA tableTwo = .notLocked ∧
      (sqlite3TransBtreeSavepoint smallConfig connA failed.2 .rollback
        1).env.stores.tables.level smallConfig.table connA tableTwo = .write) := by
  decide

end SQLumDash.Savepoint
