import SQLumDash.Trans.Steps

/-!
# What a step does to index locks

A step leaves the locked records alone, adds one, removes the one that a search finds, undoes the
history since a savepoint, or removes all of a connection. Without memory for a lock it goes on
without.
-/

namespace SQLumDash.Trans

open Ipc Psm Hash Savepoint Std

variable {Record Data : Type} {layout : Layout Record} {s s' : System layout Data}
  {conn other : Conn} {iTable t : RootPage} {key key' : Record} {trees : Trees layout Data}
  {request taken : Option (RootPage × Record)} {alloc : PsmAlloc}

/-- The locked records of an index. -/
def System.entries (s : System layout Data) (t : RootPage) : Multiset (HashElem Record Handle) :=
  s.locks.records.pList.entries t

/-- The insertion tree has this very record. -/
def Trees.StoresRecord (trees : Trees layout Data) (t : RootPage) (key : Record) : Prop :=
  (trees.indexes t).ins.getKey? key = some key

/-- A tree has a record with these key columns. -/
def Trees.WritesRecord (trees : Trees layout Data) (t : RootPage) (key : Record) : Prop :=
  (trees.indexes t).Writes key

section Pending

variable {cmp : Record → Record → Ordering} [TransCmp cmp] {pending : Pending Record Unit cmp}
  {isUpdate : Bool}

/-- An insertion stores its record only. -/
theorem Pending.stored_insert (stored : (pending.insert isUpdate key ()).ins.getKey? key' = some key') :
    pending.ins.getKey? key' = some key' ∨ key' = key := by
  have after : (pending.ins.insert key ()).getKey? key' = some key' := stored
  rw [ExtTreeMap.getKey?_insert] at after
  split_ifs at after
  · exact Or.inr (Option.some.inj after).symm
  · exact Or.inl after

/-- Taking a record back stores none. -/
theorem Pending.stored_takeBack (stored : (pending.takeBack key).ins.getKey? key' = some key') :
    pending.ins.getKey? key' = some key' := by
  have after : (pending.ins.erase key).getKey? key' = some key' := stored
  rw [ExtTreeMap.getKey?_erase] at after
  split_ifs at after
  exact after

/-- The record under a cursor is one that the tree has. -/
theorem getKey?_self {tree : ExtTreeMap Record Unit cmp} (found : tree.getKey? key = some key') :
    tree.getKey? key' = some key' := by
  obtain ⟨member, same⟩ := ExtTreeMap.getKey?_eq_some_iff.1 found
  have equal : cmp key' key = .eq := by
    rw [← same]
    exact ExtTreeMap.compare_getKey_self member
  rw [ExtTreeMap.getKey?_congr equal]
  exact found

end Pending

/-- The index that is set. -/
theorem Trees.setIndex_self (trees : Trees layout Data) (iTable : RootPage)
    (pending : Pending Record Unit (layout.cmp iTable)) :
    (trees.setIndex iTable pending).indexes iTable = pending := Function.update_self ..

/-- The other indexes stay. -/
theorem Trees.setIndex_other (trees : Trees layout Data)
    {pending : Pending Record Unit (layout.cmp iTable)} (apart : t ≠ iTable) :
    (trees.setIndex iTable pending).indexes t = trees.indexes t := Function.update_of_ne apart ..

/-- A transaction that has not written has inserted no record. -/
theorem idle_stores_no_record (t : RootPage) (key : Record) :
    ¬ (Transaction.idle : Transaction layout Data).trees.StoresRecord t key := by
  intro stored
  have none : (∅ : ExtTreeMap Record Unit (layout.cmp t)).getKey? key = none :=
    ExtTreeMap.getKey?_empty
  exact absurd (none.symm.trans stored) nofun

/-- Undoing removes only locks equal to a record that is undone. -/
structure Removes (layout : Layout Record) (newer : List (RowRecord Record))
    (locks locks' : Locks layout.lock) : Prop where
  le : ∀ t, locks'.records.pList.entries t ≤ locks.records.pList.entries t
  spared : ∀ (P : HashElem Record Handle → Prop) [DecidablePred P],
    (∀ t key, .index t key ∈ newer → ∀ elem ∈ locks.records.pList.entries t,
      layout.lock.record.recordComparator t elem.key key = true → ¬ P elem) →
    ∀ t, (locks'.records.pList.entries t).filter P = (locks.records.pList.entries t).filter P

/-- The end of a transaction adds no lock. -/
theorem finished_subset
    (entries : ∀ t, s'.entries t = (s.entries t).filter fun elem => elem.data ≠ conn.1)
    (t : RootPage) : s'.entries t ⊆ s.entries t := by
  rw [entries]
  exact Multiset.filter_subset _ _

/-- The locks of others outlast a transaction. -/
theorem mem_finished {elem : HashElem Record Handle}
    (entries : ∀ t, s'.entries t = (s.entries t).filter fun elem => elem.data ≠ conn.1)
    (member : elem ∈ s.entries t) (owns : elem.data = other.1) (apart : other ≠ conn) :
    elem ∈ s'.entries t := by
  rw [entries]
  refine Multiset.mem_filter.2 ⟨member, fun released => apart ?_⟩
  exact Subtype.ext (owns.symm.trans released)

/-- The undo of a record removes what the search finds. -/
theorem undoRecord_removes (locks : Locks layout.lock) (record : RowRecord Record) :
    Removes layout [record] locks (System.undoRecord locks record) := by
  cases record with
  | record iTable rowid => exact ⟨fun _ => le_rfl, fun _ _ _ _ => rfl⟩
  | index iTable key =>
    have outcome := (locks.records.lawful.unlockRecord iTable key).2
    refine ⟨outcome.le, fun P _ spared => ?_⟩
    apply outcome.spared
    exact fun elem sees =>
      spared iTable key List.mem_cons_self elem sees.member sees.equal

/-- So does the undo of a history. -/
theorem foldl_undoRecord_removes (newer : List (RowRecord Record)) :
    ∀ locks : Locks layout.lock, Removes layout newer locks (newer.foldl System.undoRecord locks) := by
  induction newer with
  | nil => exact fun _ => ⟨fun _ => le_rfl, fun _ _ _ _ => rfl⟩
  | cons record rest ih =>
    intro locks
    have first := undoRecord_removes locks record
    have others := ih (System.undoRecord locks record)
    refine ⟨fun t => (others.le t).trans (first.le t), fun P _ spared t => ?_⟩
    have first' := first.spared P (fun t key member => spared t key
      (by rw [List.mem_singleton.1 member]; exact List.mem_cons_self)) t
    rw [List.foldl_cons, ← first']
    apply others.spared P
    intro t key member elem inside
    exact spared t key (List.mem_cons_of_mem _ member) elem (Multiset.mem_of_le (first.le t) inside)

/-- The record whose lock a step requests. -/
def Action.requestedRecord (s : System layout Data) :
    Action Record Data → Option (RootPage × Record)
  | .insertIndex _ _ iTable _ _ key => some (iTable, key)
  | .deleteIndex _ _ iTable false key => ((s.indexes iTable).getKey? key).map (iTable, ·)
  | _ => none

/-- The record that a step takes back. -/
def Action.takenRecord (s : System layout Data) : Action Record Data → Option (RootPage × Record)
  | .deleteIndex conn _ iTable true key =>
    (((s.trans conn).trees.indexes iTable).ins.getKey? key).map (iTable, ·)
  | _ => none

/-- What a step does to the index locks and to its transaction. -/
inductive IndexStep (alloc : PsmAlloc) (request taken : Option (RootPage × Record)) (conn : Conn)
    (s s' : System layout Data) : Prop
  /-- Locks and trees stay. -/
  | kept (entries : ∀ t, s'.entries t = s.entries t)
      (trees : (s'.trans conn).trees.indexes = (s.trans conn).trees.indexes)
      (new : List (RowRecord Record)) (quiet : ∀ t key, .index t key ∉ new)
      (history : (s'.trans conn).history = new ++ (s.trans conn).history)
      (saved : (s'.trans conn).saved = (s.trans conn).saved)
  /-- A record is written whose lock the connection has. -/
  | held (iTable : RootPage) (key : Record) (requested : request = some (iTable, key))
      (answered : (s.lockIndex conn alloc iTable key).1 = .done) (elem : HashElem Record Handle)
      (sees : s.locks.records.pList.Sees layout.lock.record iTable key elem)
      (mine : elem.data = conn.1) (entries : ∀ t, s'.entries t = s.entries t)
      (stores : ∀ t key', (s'.trans conn).trees.StoresRecord t key' →
        (s.trans conn).trees.StoresRecord t key' ∨ t = iTable ∧ key' = key)
      (writes : ∀ t key', (s'.trans conn).trees.WritesRecord t key' →
        (s.trans conn).trees.WritesRecord t key' ∨ t = iTable ∧ layout.cmp t key key' = .eq)
      (history : (s'.trans conn).history = (s.trans conn).history)
      (saved : (s'.trans conn).saved = (s.trans conn).saved)
  /-- A record is locked, recorded and written. The lock may be lost. -/
  | locked (iTable : RootPage) (key : Record) (requested : request = some (iTable, key))
      (granted : (s.lockIndex conn alloc iTable key).1 = .ok)
      (free : ∀ elem, ¬ s.locks.records.pList.Sees layout.lock.record iTable key elem)
      (entries : (∀ t, s'.entries t =
        if t = iTable then ⟨conn.1, key⟩ ::ₘ s.entries t else s.entries t) ∨
          alloc.loses = true ∧ ∀ t, s'.entries t = s.entries t)
      (stores : ∀ t key', (s'.trans conn).trees.StoresRecord t key' →
        (s.trans conn).trees.StoresRecord t key' ∨ t = iTable ∧ key' = key)
      (writes : ∀ t key', (s'.trans conn).trees.WritesRecord t key' →
        (s.trans conn).trees.WritesRecord t key' ∨ t = iTable ∧ layout.cmp t key key' = .eq)
      (history : (s'.trans conn).history = .index iTable key :: (s.trans conn).history)
      (saved : (s'.trans conn).saved = (s.trans conn).saved)
  /-- A record is taken back, and what the search finds is unlocked. -/
  | unlocked (iTable : RootPage) (key : Record) (back : taken = some (iTable, key))
      (stored : (s.trans conn).trees.StoresRecord iTable key)
      (outcome : UnlockOutcome layout.lock.record s.locks.records.pList iTable key
        s'.locks.records.pList)
      (stores : ∀ t key', (s'.trans conn).trees.StoresRecord t key' →
        (s.trans conn).trees.StoresRecord t key')
      (writes : ∀ t key', (s'.trans conn).trees.WritesRecord t key' →
        (s.trans conn).trees.WritesRecord t key' ∧ (t = iTable → layout.cmp t key key' = .eq →
          key' ∈ ((s.trans conn).trees.indexes t).del))
      (history : (s'.trans conn).history = (s.trans conn).history)
      (saved : (s'.trans conn).saved = (s.trans conn).saved)
  /-- Savepoints are opened or released. -/
  | savepoints (entries : ∀ t, s'.entries t = s.entries t)
      (trees : (s'.trans conn).trees = (s.trans conn).trees)
      (history : (s'.trans conn).history = (s.trans conn).history)
      (saved : ∀ point ∈ (s'.trans conn).saved,
        point ∈ (s.trans conn).saved ∨ point.2 = (s.trans conn).trees)
  /-- The history since a savepoint is undone. -/
  | rolledBack (newer older : List (RowRecord Record)) (number : Int)
      (removes : Removes layout newer s.locks s'.locks)
      (before : (s.trans conn).history = newer ++ older)
      (history : (s'.trans conn).history = older)
      (trees : (number, (s'.trans conn).trees) ∈ (s.trans conn).saved)
      (saved : ∀ point ∈ (s'.trans conn).saved, point ∈ (s.trans conn).saved)
  | finished (entries : ∀ t, s'.entries t = (s.entries t).filter fun elem => elem.data ≠ conn.1)
      (trans : s'.trans conn = .idle)

/-- Nothing of the indexes changes. -/
theorem IndexStep.of_same (records : s'.locks.records = s.locks.records)
    (trans : s'.trans conn = s.trans conn) : IndexStep alloc request taken conn s s' :=
  .kept (fun _ => by unfold System.entries; rw [records]) (by rw [trans]) []
    (fun _ _ member => nomatch member) (by rw [trans]; rfl) (by rw [trans])

/-- A call that locks a row leaves the indexes alone. -/
theorem indexStep_lockRow {rowid : Int} {refusal : Rc → Rc}
    (indexes : trees.indexes = (s.trans conn).trees.indexes) :
    IndexStep alloc request taken conn s (s.afterLock conn (s.lockRow conn iTable rowid)
      (.record iTable rowid) trees refusal).2 := by
  rcases s.afterLock_cases conn (s.lockRow conn iTable rowid) (.record iTable rowid) trees refusal
    with ⟨-, eq⟩ | ⟨-, eq⟩ | ⟨-, -, eq⟩
  · rw [eq]
    refine .kept (fun _ => rfl) ?_ [.record iTable rowid] (fun t key => by simp) ?_ ?_
    all_goals rw [System.setTrans_self]
    · exact indexes
    · rfl
  · rw [eq]
    refine .kept (fun _ => rfl) ?_ [] (fun _ _ member => nomatch member) ?_ ?_
    all_goals rw [System.setTrans_self]
    · exact indexes
    · rfl
  · rw [eq]
    exact .of_same rfl rfl

/-- A deletion of a row leaves the indexes alone. -/
theorem indexStep_deleteTable (transIsUsed : Bool) (rowid : Int) :
    IndexStep alloc request taken conn s
      (s.sqlite3TransBtreeDeleteTable conn iTable transIsUsed rowid).2 := by
  unfold System.sqlite3TransBtreeDeleteTable
  cases transIsUsed with
  | true =>
    refine .kept (fun _ => rfl) ?_ [] (fun _ _ member => nomatch member) ?_ ?_
    all_goals simp only [if_true, System.setTrans_self]
    · rfl
    · rfl
  | false => exact indexStep_lockRow rfl

/-- A record that the connection has locked is found. -/
theorem lockIndex_done (held : (s.lockIndex conn alloc iTable key).1 = .done) :
    (∃ elem, s.locks.records.pList.Sees layout.lock.record iTable key elem ∧ elem.data = conn.1) ∧
      ∀ t, (s.lockIndex conn alloc iTable key).2.records.pList.entries t = s.entries t := by
  have outcome := (s.locks.records.lawful.lockRecord alloc conn.1 iTable key).2
  have answer : (sqlite3rowlockPsmLockRecord layout.lock.record alloc conn.1 s.locks.records.pList
      iTable key).1 = .done := held
  have after : (s.lockIndex conn alloc iTable key).2.records.pList =
      (sqlite3rowlockPsmLockRecord layout.lock.record alloc conn.1 s.locks.records.pList
        iTable key).2 := rfl
  rw [after]
  generalize sqlite3rowlockPsmLockRecord layout.lock.record alloc conn.1 s.locks.records.pList
    iTable key = result at outcome answer
  cases outcome with
  | unknown | nomem | lost | added => cases answer
  | held elem sees =>
    split_ifs at answer with mine
    exact ⟨⟨elem, sees, mine⟩, fun _ => rfl⟩

/-- A call that locks an index record and writes it. -/
theorem indexStep_lock {refusal : Rc → Rc}
    (stores : ∀ t key', trees.StoresRecord t key' →
      (s.trans conn).trees.StoresRecord t key' ∨ t = iTable ∧ key' = key)
    (writes : ∀ t key', trees.WritesRecord t key' →
      (s.trans conn).trees.WritesRecord t key' ∨ t = iTable ∧ layout.cmp t key key' = .eq) :
    IndexStep alloc (some (iTable, key)) taken conn s
      (s.afterLock conn (s.lockIndex conn alloc iTable key) (.index iTable key) trees refusal).2 := by
  rcases s.afterLock_cases conn (s.lockIndex conn alloc iTable key) (.index iTable key) trees refusal
    with ⟨granted, eq⟩ | ⟨held, eq⟩ | ⟨-, -, eq⟩
  · rw [eq]
    obtain ⟨free, entries⟩ := s.locks.records.lawful.lockRecord_granted granted
    have same := entries.imp_right fun lost => And.intro lost.1 fun t =>
      congrArg (fun pList => pList.entries t) lost.2
    refine .locked iTable key rfl granted free same ?_ ?_ ?_ ?_
    all_goals rw [System.setTrans_self]
    · exact stores
    · exact writes
    · rfl
  · rw [eq]
    obtain ⟨⟨elem, sees, mine⟩, entries⟩ := lockIndex_done held
    refine .held iTable key rfl held elem sees mine entries ?_ ?_ ?_ ?_
    all_goals rw [System.setTrans_self]
    · exact stores
    · exact writes
    · rfl
  · rw [eq]
    exact .of_same rfl rfl

/-- Trees in which one index changed. -/
theorem Trees.setIndex_forall {pending : Pending Record Unit (layout.cmp iTable)}
    {P : (t : RootPage) → Pending Record Unit (layout.cmp t) → Record → Prop}
    {Q : RootPage → Record → Prop}
    (here : ∀ key', P iTable pending key' → P iTable (trees.indexes iTable) key' ∨ Q iTable key')
    (t : RootPage) (key' : Record)
    (after : P t ((trees.setIndex iTable pending).indexes t) key') :
    P t (trees.indexes t) key' ∨ t = iTable ∧ Q t key' := by
  by_cases same : t = iTable
  · subst same
    rw [setIndex_self] at after
    exact (here key' after).imp_right fun new => ⟨rfl, new⟩
  · rw [setIndex_other trees same] at after
    exact Or.inl after

/-- An insertion locks its record. -/
theorem indexStep_insertIndex (append shared : Bool) (key : Record) :
    IndexStep alloc (some (iTable, key)) taken conn s
      (s.sqlite3TransBtreeInsertIndex conn alloc iTable append shared key).2 := by
  apply indexStep_lock
  · exact Trees.setIndex_forall (P := fun _ pending key' => pending.ins.getKey? key' = some key')
      (Q := fun _ key' => key' = key) fun key' after => Pending.stored_insert after
  · exact Trees.setIndex_forall (P := fun _ pending key' => pending.Writes key')
      (Q := fun t key' => layout.cmp t key key' = .eq) fun key' after =>
        (Pending.insert_writes after).symm

/-- A deletion of a record of the shared tree locks it. -/
theorem indexStep_deleteShared :
    IndexStep alloc (some (iTable, key)) taken conn s
      (s.sqlite3TransBtreeDeleteIndex conn alloc iTable false key).2 := by
  apply indexStep_lock
  · exact Trees.setIndex_forall (P := fun _ pending key' => pending.ins.getKey? key' = some key')
      (Q := fun _ key' => key' = key) fun key' after => Or.inl after
  · exact Trees.setIndex_forall (P := fun _ pending key' => pending.Writes key')
      (Q := fun t key' => layout.cmp t key key' = .eq) fun key' after =>
        (Pending.delete_writes after).symm

/-- Taking a record back unlocks what the search finds. -/
theorem indexStep_takeBack (stored : (s.trans conn).trees.StoresRecord iTable key) :
    IndexStep alloc request (some (iTable, key)) conn s
      (s.sqlite3TransBtreeDeleteIndex conn alloc iTable true key).2 := by
  unfold System.sqlite3TransBtreeDeleteIndex
  simp only [if_true]
  refine .unlocked iTable key rfl stored (s.locks.records.lawful.unlockRecord iTable key).2
    ?_ ?_ ?_ ?_
  all_goals rw [System.setTrans_self]
  · intro t key' after
    have before := Trees.setIndex_forall
      (P := fun _ pending key' => pending.ins.getKey? key' = some key')
      (Q := fun _ _ => False) (fun key' after => Or.inl (Pending.stored_takeBack after)) t key' after
    exact before.resolve_right fun none => none.2
  · intro t key' after
    by_cases same : t = iTable
    · subst same
      unfold Trees.WritesRecord at after ⊢
      rw [Trees.setIndex_self] at after
      rcases after with inserted | deleted
      · obtain ⟨apart, inside⟩ := Pending.mem_takeBack_ins.1 inserted
        exact ⟨Or.inl inside, fun _ equal => absurd equal apart⟩
      · exact ⟨Or.inr deleted, fun _ _ => deleted⟩
    · unfold Trees.WritesRecord at after ⊢
      rw [Trees.setIndex_other _ same] at after
      exact ⟨after, fun here => absurd here same⟩
  · rfl

/-- The end of a savepoint. -/
theorem indexStep_endSavepoint (aligned : Aligned (s.trans conn)) (op : SavepointOp)
    (iSavepoint : Int) :
    IndexStep alloc request taken conn s (s.sqlite3TransBtreeSavepoint conn op iSavepoint) := by
  unfold System.sqlite3TransBtreeSavepoint
  dsimp only
  cases found : System.savedAt (s.trans conn).saved iSavepoint with
  | none => exact .of_same rfl rfl
  | some point =>
    obtain ⟨trees, below⟩ := point
    obtain ⟨position, lower, target, -, suffix, suffix'⟩ :=
      target_of_savedAt aligned.points (fun _ _ same => same) found
    cases op with
    | release =>
      simp only [rowlockSavepoint_release target]
      refine .savepoints (fun t => rfl) ?_ ?_ ?_
      all_goals rw [System.setTrans_self]
      · rfl
      · exact fun point member => Or.inl (suffix'.subset (List.mem_cons_of_mem _ member))
    | rollback =>
      obtain ⟨newer, older, history, -, ended⟩ := aligned.rolledBack target suffix s.locks
      simp only [ended]
      refine .rolledBack newer older iSavepoint (foldl_undoRecord_removes newer s.locks) history
        ?_ ?_ ?_
      all_goals rw [System.setTrans_self]
      · rfl
      · exact suffix'.subset List.mem_cons_self
      · exact fun point member => suffix'.subset member

/-- The creation of a savepoint. -/
theorem indexStep_savepoint (s : System layout Data) (conn : Conn) :
    IndexStep alloc request taken conn s (s.savepoint conn) := by
  unfold System.savepoint
  refine .savepoints (fun _ => rfl) ?_ ?_ ?_
  all_goals rw [System.setTrans_self]
  · unfold Transaction.history rowlockSavepointCreate
    split_ifs <;> rfl
  · intro point member
    rcases List.mem_cons.1 member with here | inside
    · exact Or.inr (by rw [here])
    · exact Or.inl inside

/-- The end of a transaction. -/
theorem indexStep_finish (tables : RootPage → ExtTreeMap Int Data)
    (indexes : (t : RootPage) → ExtTreeMap Record Unit (layout.cmp t)) :
    IndexStep alloc request taken conn s
      ({ s with tables := tables, indexes := indexes }.sqlite3TransBtreeRollback conn) := by
  refine .finished (fun t => ?_) System.setTrans_self
  have entries := (s.locks.records.lawful.unlockProc conn.1).2.2 t
  refine Eq.trans entries (Multiset.filter_congr fun elem _ => ?_)
  rw [← Bool.not_eq_true, releasedBy_iff conn.2.1 conn.2.2]

/-- What any step does to the indexes. -/
theorem step_indexStep (action : Action Record Data) (aligned : Aligned (s.trans action.conn)) :
    IndexStep action.alloc (action.requestedRecord s) (action.takenRecord s) action.conn s
      (step s action) := by
  unfold step Action.perform
  cases action with
  | insertTable => exact indexStep_lockRow rfl
  | deleteTable conn iTable transIsUsed rowid =>
    dsimp only
    generalize (if transIsUsed = true then _ else _) = stands
    cases stands with
    | false => exact .of_same rfl rfl
    | true => exact indexStep_deleteTable transIsUsed rowid
  | insertIndex => exact indexStep_insertIndex _ _ _
  | deleteIndex conn alloc iTable transIsUsed key =>
    cases transIsUsed with
    | true =>
      unfold Action.takenRecord
      simp only [if_true]
      cases stands : ((s.trans conn).trees.indexes iTable).ins.getKey? key with
      | none => exact .of_same rfl rfl
      | some record => exact indexStep_takeBack (getKey?_self stands)
    | false =>
      unfold Action.requestedRecord
      simp only [Bool.false_eq_true, if_false]
      cases (s.indexes iTable).getKey? key with
      | none => exact .of_same rfl rfl
      | some record => exact indexStep_deleteShared
  | createIndex conn alloc iTable =>
    refine .kept (fun t => ?_) rfl [] (fun _ _ member => nomatch member) rfl rfl
    exact (s.locks.records.lawful.createTable alloc iTable).2 t
  | savepoint => exact indexStep_savepoint s _
  | endSavepoint => exact indexStep_endSavepoint aligned _ _
  | commit | rollback => exact indexStep_finish _ _

end SQLumDash.Trans
