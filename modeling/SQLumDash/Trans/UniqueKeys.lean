import SQLumDash.Lib.Covering
import SQLumDash.Psm.RecordLocks
import SQLumDash.Trans.IndexSteps

/-!
# Unique indexes

An insertion first asks whether its key is in conflict and then inserts the key and the rowid. The
question is put with the key columns alone, the lock is on the whole record, and others may act
between the two. What the search of the trees finds is an argument of the question. Where a question
finds the locks on its key, no lock is taken on a key that another connection has checked, and no
lock is lost, the locks of different connections are on different keys.
-/

namespace SQLumDash.Trans

open Ipc Psm Hash Savepoint Runs Std Function

/-- The number of key columns and their order. -/
structure UniqueIndex where
  iTable : RootPage
  nKeyCol : Nat
  cmp : List Column → List Column → Ordering
  trans : TransCmp cmp

namespace UniqueIndex

variable (index : UniqueIndex)

instance : TransCmp index.cmp := index.trans

/-- The key columns of a record. -/
def keyColumns (record : List Column) : List Column := record.take index.nKeyCol

/-- A key column is NULL. -/
def hasNull (record : List Column) : Bool :=
  (index.keyColumns record).any fun column => column.serialType == 0

/-- The key columns are equal and not NULL. -/
structure SameKey (record record' : List Column) : Prop where
  left : index.hasNull record = false
  equal : index.cmp (index.keyColumns record) (index.keyColumns record') = .eq
  right : index.hasNull record' = false

instance (record record' : List Column) : Decidable (index.SameKey record record') :=
  decidable_of_iff (index.hasNull record = false ∧
    index.cmp (index.keyColumns record) (index.keyColumns record') = .eq ∧
    index.hasNull record' = false)
    ⟨fun ⟨left, equal, right⟩ => ⟨left, equal, right⟩,
      fun ⟨left, equal, right⟩ => ⟨left, equal, right⟩⟩

variable {index} {record record' record'' : List Column}

/-- Having one key is symmetric. -/
theorem SameKey.symm (same : index.SameKey record record') : index.SameKey record' record :=
  ⟨same.right, OrientedCmp.eq_symm same.equal, same.left⟩

/-- Having one key is transitive. -/
theorem SameKey.trans (same : index.SameKey record record')
    (same' : index.SameKey record' record'') : index.SameKey record record'' :=
  ⟨same.left, TransCmp.eq_trans same.equal same'.equal, same'.right⟩

/-- Key columns are their own. -/
theorem keyColumns_keyColumns :
    index.keyColumns (index.keyColumns record) = index.keyColumns record :=
  (List.take_take ..).trans (by rw [Nat.min_self]; rfl)

/-- A record has the key that its key columns have. -/
theorem SameKey.of_keyColumns (same : index.SameKey record record') :
    index.SameKey record (index.keyColumns record') := by
  refine ⟨same.left, ?_, ?_⟩
  · rw [keyColumns_keyColumns]
    exact same.equal
  · unfold hasNull
    rw [keyColumns_keyColumns]
    exact same.right

end UniqueIndex

variable {Data : Type} {layout : Layout (List Column)}

/-- `sqlite3BtreeNoConflict`: the answer, and whether the key is in conflict. The trees have `found`
the key or not. -/
def System.sqlite3BtreeNoConflict (index : UniqueIndex) (s : System layout Data) (conn : Conn)
    (found : Bool) (key : List Column) : Rc × Bool :=
  match sqlite3rowlockPsmLockRecordQuery layout.lock.record conn.1 s.locks.records.pList
      index.iTable key with
  | .ok => (.ok, found)
  | .done => (.ok, found)
  | .locked => (.ok, true)
  | rc => (rc, false)

/-- Connections between the two steps of an insertion. -/
structure Inserting (layout : Layout (List Column)) (Data : Type) where
  system : System layout Data
  /-- The key that was checked and is not yet inserted. -/
  checked : Conn → Option (List Column)

/-- A step on a unique index. -/
inductive UniqueAction where
  /-- The question, and whether the trees have the key. -/
  | noConflict (conn : Conn) (found : Bool) (record : List Column)
  | insert (conn : Conn) (alloc : PsmAlloc) (append shared : Bool) (record : List Column)
  | commit (conn : Conn)
  | rollback (conn : Conn)

/-- A key with a NULL is not in conflict, and a record is inserted only after its key was checked.
-/
def uniqueStep (index : UniqueIndex) (s : Inserting layout Data) :
    UniqueAction → Inserting layout Data
  | .noConflict conn found record =>
    let key := index.keyColumns record
    let answer := s.system.sqlite3BtreeNoConflict index conn found key
    let passes := answer.1 = .ok ∧ (index.hasNull key = true ∨ answer.2 = false)
    { s with checked := update s.checked conn (if passes then some key else none) }
  | .insert conn alloc append shared record =>
    if s.checked conn = some (index.keyColumns record) then
      ⟨step s.system (.insertIndex conn alloc index.iTable append shared record),
        update s.checked conn none⟩
    else s
  | .commit conn => ⟨step s.system (.commit conn), update s.checked conn none⟩
  | .rollback conn => ⟨step s.system (.rollback conn), update s.checked conn none⟩

/-- A record is inserted whose key is checked. -/
theorem uniqueStep_insert {index : UniqueIndex} {s : Inserting layout Data} {conn : Conn}
    {record : List Column} (has : s.checked conn = some (index.keyColumns record))
    (alloc : PsmAlloc) (append shared : Bool) :
    uniqueStep index s (.insert conn alloc append shared record) =
      ⟨step s.system (.insertIndex conn alloc index.iTable append shared record),
        update s.checked conn none⟩ := if_pos has

/-- Locks are present, and no transaction has written. -/
def Inserting.start (tables : RootPage → ExtTreeMap Int Data)
    (indexes : (t : RootPage) → ExtTreeMap (List Column) Unit (layout.cmp t))
    (locks : Locks layout.lock) : Inserting layout Data :=
  ⟨⟨tables, indexes, locks, fun _ => .idle⟩, fun _ => none⟩

variable {index : UniqueIndex} {checked checked' : Conn → Option (List Column)}
  {s s' : System layout Data} {conn : Conn} {request : Option (RootPage × List Column)}
  {record : List Column} {alloc : PsmAlloc} {found : Bool}

/-- Records of one key without NULL are related. -/
def UniqueIndex.scheme (index : UniqueIndex) :
    Covering.Scheme (HashElem (List Column) Handle) Handle (List Column) Conn where
  owner := HashElem.data
  key := HashElem.key
  name := Subtype.val
  related := index.SameKey
  symm := UniqueIndex.SameKey.symm
  trans := UniqueIndex.SameKey.trans

/-- A record without NULL is in the insertion tree. -/
def Inserts (index : UniqueIndex) (s : System layout Data) (conn : Conn) (record : List Column) :
    Prop :=
  (s.trans conn).trees.StoresRecord index.iTable record ∧ index.hasNull record = false

/-- One connection has the locks of a key, what is pending is locked, and a checked key is locked by
nobody else. -/
structure UniqueLocked (index : UniqueIndex) (checked : Conn → Option (List Column))
    (s : System layout Data) : Prop where
  covers : index.scheme.Covers (s.entries index.iTable) (Inserts index s)
  free : ∀ conn key, checked conn = some key → ∀ elem ∈ s.entries index.iTable,
    index.SameKey elem.key key → elem.data = conn.1

/-- The conditions under which a record may be locked. -/
structure LocksAlone (index : UniqueIndex) (checked : Conn → Option (List Column))
    (s : System layout Data) (conn : Conn) (alloc : PsmAlloc) (record : List Column) : Prop where
  /-- No lock is lost. -/
  stored : alloc.loses = false
  /-- No other connection has checked the key. -/
  alone : ∀ other, other ≠ conn → ∀ key, checked other = some key → ¬ index.SameKey record key
  only : ∀ elem, s.locks.records.pList.Sees layout.lock.record index.iTable record elem →
    index.hasNull record = false → index.SameKey elem.key record

/-- The conditions on a question for a key. -/
structure AsksAll (index : UniqueIndex) (s : System layout Data) (conn : Conn)
    (key : List Column) : Prop where
  /-- A lock of another connection on the key is found. -/
  finds : ∀ elem ∈ s.entries index.iTable, elem.data ≠ conn.1 → index.SameKey elem.key key →
    s.locks.records.pList.Sees layout.lock.record index.iTable key elem
  only : ∀ elem, s.locks.records.pList.Sees layout.lock.record index.iTable key elem →
    index.hasNull key = false → index.SameKey elem.key key

/-- The condition on a step. -/
def CheckDiscipline (index : UniqueIndex) (s : Inserting layout Data) : UniqueAction → Prop
  | .noConflict conn _ record => AsksAll index s.system conn (index.keyColumns record)
  | .insert conn alloc _ _ record => s.checked conn = some (index.keyColumns record) →
      LocksAlone index s.checked s.system conn alloc record
  | .commit _ => True
  | .rollback _ => True

section

variable (locked : UniqueLocked index checked s)

include locked

/-- A key is dropped from those that are checked. -/
theorem UniqueLocked.forget : UniqueLocked index (update checked conn none) s where
  covers := locked.covers
  free other key has := by
    by_cases same : other = conn
    · rw [same, update_self] at has
      cases has
    · rw [update_of_ne same] at has
      exact locked.free other key has

section

variable (asks : AsksAll index s conn record)
  (passes : (s.sqlite3BtreeNoConflict index conn found record).1 = .ok ∧
    (index.hasNull record = true ∨ (s.sqlite3BtreeNoConflict index conn found record).2 = false))

include asks passes

/-- A question finds no lock of another connection. -/
theorem UniqueLocked.noConflict :
    ∀ elem ∈ s.entries index.iTable, index.SameKey elem.key record → elem.data = conn.1 := by
  intro elem member same
  by_contra foreign
  have sees := asks.finds elem member foreign same
  have created := PsmList.created_of_mem sees.member
  unfold System.sqlite3BtreeNoConflict at passes
  rcases s.locks.records.lawful.query created conn.1 record with
    ⟨found, finds, answer⟩ | ⟨none, -⟩
  · by_cases mine : found.data = conn.1
    · have key := asks.only found finds same.right
      have owner := locked.covers.owned elem member found finds.member (same.trans key.symm)
      exact foreign (Eq.trans owner mine)
    · rw [if_neg mine] at answer
      rw [answer] at passes
      rcases passes.2 with isNull | passed
      · rw [same.right] at isNull
        cases isNull
      · cases passed
  · exact none elem sees

/-- A checked key that was found free. -/
theorem UniqueLocked.check : UniqueLocked index (update checked conn (some record)) s where
  covers := locked.covers
  free other key has := by
    by_cases same : other = conn
    · subst same
      rw [update_self] at has
      cases has
      exact locked.noConflict asks passes
    · rw [update_of_ne same] at has
      exact locked.free other key has

end

/-- A lock on the checked key of the connection that takes it. -/
theorem UniqueLocked.granted (asked : checked conn = some (index.keyColumns record))
    (alone : LocksAlone index checked s conn alloc record)
    (entries : s'.entries index.iTable = ⟨conn.1, record⟩ ::ₘ s.entries index.iTable)
    (inserts : ∀ conn' record', Inserts index s' conn' record' →
      Inserts index s conn' record' ∨ conn' = conn ∧ record' = record) :
    UniqueLocked index checked s' := by
  constructor
  · rw [entries]
    refine locked.covers.granted rfl (fun elem member same => ?_) fun conn' record' after => ?_
    · exact locked.free conn _ asked elem member (UniqueIndex.SameKey.of_keyColumns same)
    · refine (inserts conn' record' after).imp_right ?_
      rintro ⟨rfl, rfl⟩
      exact ⟨rfl, after.2, ReflCmp.compare_self, after.2⟩
  · intro other key has elem member same
    rw [entries] at member
    rcases Multiset.mem_cons.1 member with rfl | inside
    · by_contra foreign
      have apart : other ≠ conn := fun equal => foreign (by rw [equal])
      exact alone.alone other apart key has same
    · exact locked.free other key has elem inside same

/-- A step that locks only a checked key and takes no record back. -/
theorem UniqueLocked.step (indexStep : IndexStep alloc request none conn s s')
    (others : ∀ other, other ≠ conn → s'.trans other = s.trans other)
    (plain : (s.trans conn).saved = [])
    (asked : ∀ t record, request = some (t, record) → t = index.iTable ∧
      checked conn = some (index.keyColumns record) ∧ LocksAlone index checked s conn alloc record) :
    UniqueLocked index checked s' := by
  -- The pending records of the others are what they were.
  have elsewhere : ∀ {P : List Column → Prop},
      (∀ record, (s'.trans conn).trees.StoresRecord index.iTable record →
        (s.trans conn).trees.StoresRecord index.iTable record ∨ P record) →
      ∀ conn' record, Inserts index s' conn' record →
        Inserts index s conn' record ∨ conn' = conn ∧ P record := by
    rintro P mine conn' record ⟨stored, notNull⟩
    by_cases same : conn' = conn
    · subst same
      exact (mine record stored).imp (fun before => ⟨before, notNull⟩) fun new => ⟨rfl, new⟩
    · rw [others conn' same] at stored
      exact Or.inl ⟨stored, notNull⟩
  have unwritten : (∀ t, s'.entries t = s.entries t) →
      (∀ record, (s'.trans conn).trees.StoresRecord index.iTable record →
        (s.trans conn).trees.StoresRecord index.iTable record) → UniqueLocked index checked s' := by
    intro entries stores
    constructor
    · rw [entries]
      refine locked.covers.written fun conn' record after => Or.inl ?_
      have before := elsewhere (P := fun _ => False) (fun record after =>
        Or.inl (stores record after)) conn' record after
      exact before.resolve_right fun none => none.2
    · rw [entries]
      exact locked.free
  cases indexStep with
  | kept entries trees =>
    refine unwritten entries fun record stored => ?_
    unfold Trees.StoresRecord at stored ⊢
    rwa [trees] at stored
  | held iTable key requested _ elem sees mine entries stores =>
    obtain ⟨rfl, -, alone⟩ := asked iTable key requested
    constructor
    · rw [entries]
      refine locked.covers.written fun conn' record after => ?_
      refine (elsewhere (stores _) conn' record after).imp_right ?_
      rintro ⟨rfl, -, rfl⟩
      exact ⟨elem, sees.member, mine, alone.only elem sees after.2⟩
    · rw [entries]
      exact locked.free
  | locked iTable key requested _ _ entries stores =>
    obtain ⟨rfl, has, alone⟩ := asked iTable key requested
    refine locked.granted has alone ?_ fun conn' record after => ?_
    · have added := entries.resolve_right fun lost =>
        Bool.noConfusion (alone.stored.symm.trans lost.1)
      rw [added, if_pos rfl]
    · exact (elsewhere (stores _) conn' record after).imp_right fun new => ⟨new.1, new.2.2⟩
  | unlocked _ _ back => cases back
  | savepoints entries trees =>
    refine unwritten entries fun record stored => ?_
    rwa [trees] at stored
  | rolledBack _ _ _ _ _ _ trees =>
    rw [plain] at trees
    cases trees
  | finished entries trans =>
    constructor
    · refine locked.covers.released (finished_subset entries _) ?_
      rintro conn' record ⟨stored, notNull⟩
      by_cases same : conn' = conn
      · rw [same, trans] at stored
        exact absurd stored (idle_stores_no_record index.iTable record)
      · rw [others conn' same] at stored
        exact ⟨⟨stored, notNull⟩, fun elem member owns _ => mem_finished entries member owns same⟩
    · exact fun other key has elem member =>
        locked.free other key has elem (finished_subset entries _ member)

end

/-- What holds between the steps of a run. -/
structure Inserting.Lawful (index : UniqueIndex) (s : Inserting layout Data) : Prop where
  aligned : s.system.Aligned
  plain : s.system.NoSavepoint
  locked : UniqueLocked index s.checked s.system

/-- A step that leaves no checked key. -/
theorem Inserting.Lawful.act {s : Inserting layout Data} (lawful : s.Lawful index)
    (action : Action (List Column) Data) (plain : ∀ conn, action ≠ .savepoint conn)
    (taken : action.takenRecord s.system = none)
    (asked : ∀ t record, action.requestedRecord s.system = some (t, record) → t = index.iTable ∧
      s.checked action.conn = some (index.keyColumns record) ∧
      LocksAlone index s.checked s.system action.conn action.alloc record) :
    Inserting.Lawful index ⟨Trans.step s.system action, update s.checked action.conn none⟩ where
  aligned := step_aligned action lawful.aligned
  plain := lawful.plain.step action plain
  locked := by
    have indexStep := step_indexStep action (lawful.aligned action.conn)
    rw [taken] at indexStep
    exact (lawful.locked.step indexStep (fun _ apart => step_others s.system action apart)
      (lawful.plain action.conn) asked).forget

/-- Every step of a disciplined run. -/
theorem Inserting.Lawful.step {s : Inserting layout Data} (lawful : s.Lawful index)
    (action : UniqueAction) (disciplined : CheckDiscipline index s action) :
    Inserting.Lawful index (uniqueStep index s action) := by
  cases action with
  | noConflict conn found record =>
    refine ⟨lawful.aligned, lawful.plain, ?_⟩
    unfold uniqueStep
    dsimp only
    split_ifs with passes
    · exact lawful.locked.check disciplined passes
    · exact lawful.locked.forget
  | insert conn alloc append shared record =>
    by_cases has : s.checked conn = some (index.keyColumns record)
    · rw [uniqueStep_insert has]
      refine lawful.act (.insertIndex conn alloc index.iTable append shared record) nofun rfl ?_
      rintro _ _ ⟨⟩
      exact ⟨rfl, has, disciplined has⟩
    · unfold uniqueStep
      dsimp only
      rw [if_neg has]
      exact lawful
  | commit conn => exact lawful.act (.commit conn) nofun rfl nofun
  | rollback conn => exact lawful.act (.rollback conn) nofun rfl nofun

/-- Locks and pending records of different connections have different keys. -/
structure KeysApart (index : UniqueIndex) (s : System layout Data) (conn other : Conn) : Prop where
  locks : ∀ elem ∈ s.entries index.iTable, ∀ elem' ∈ s.entries index.iTable,
    elem.data = conn.1 → elem'.data = other.1 → ¬ index.SameKey elem.key elem'.key
  pending : ∀ record record', (s.trans conn).trees.StoresRecord index.iTable record →
    (s.trans other).trees.StoresRecord index.iTable record' → ¬ index.SameKey record record'

/-- In every state of a run whose questions find the locks on their keys, and in which no record is
locked while another connection has its key checked and no lock is lost, the locks and the pending
records of different connections have different keys, if the locks at the start have. -/
theorem unique_keys_apart (index : UniqueIndex) (tables : RootPage → ExtTreeMap Int Data)
    (indexes : (t : RootPage) → ExtTreeMap (List Column) Unit (layout.cmp t))
    (locks : Locks layout.lock)
    (owners : ∀ elem ∈ locks.records.pList.entries index.iTable,
      ∀ elem' ∈ locks.records.pList.entries index.iTable,
        index.SameKey elem.key elem'.key → elem.data = elem'.data)
    (actions : List UniqueAction)
    (disciplined : Guarded (uniqueStep index) (CheckDiscipline index)
      (Inserting.start tables indexes locks) actions)
    (conn other : Conn) (apart : conn ≠ other) :
    KeysApart index (run (uniqueStep index) (Inserting.start tables indexes locks) actions).system
      conn other := by
  have reached : (run (uniqueStep index) (Inserting.start tables indexes locks) actions).Lawful
      index := by
    apply disciplined.invariant (P := Inserting.Lawful index)
    · exact fun s action lawful disciplined => lawful.step action disciplined
    · refine ⟨fun conn => init_aligned tables indexes conn, fun _ => rfl, ⟨?_, owners⟩, nofun⟩
      exact fun conn record inserts =>
        absurd inserts.1 (idle_stores_no_record index.iTable record)
  have covers := reached.locked.covers
  constructor
  · intro elem member elem' member' mine his same
    have owner : elem.data = elem'.data := covers.owned elem member elem' member' same
    exact apart (Subtype.ext (mine.symm.trans (owner.trans his)))
  · intro record record' stored stored' same
    have mine : Inserts index _ conn record := ⟨stored, same.left⟩
    have his : Inserts index _ other record' := ⟨stored', same.right⟩
    exact apart (Subtype.ext (covers.name_eq mine his same))

/-- Records of small integers, by content. -/
def byteOrder : List Column → List Column → Ordering := compareOn fun record =>
  bigEndian (contents record)

instance : TransCmp byteOrder := inferInstanceAs (TransCmp (compareOn _))

/-- Records are locked as they are serialized. -/
def recordLayout : Layout (List Column) where
  lock := ⟨smallConfig.row, smallConfig.table, fun record => blobHash (vdbeMakeRecord record),
    fun _ record record' => recordComparator (fun _ _ z => z) (vdbeMakeRecord record)
      (vdbeMakeRecord record') none = 0⟩
  cmp _ := byteOrder
  trans _ := inferInstance

/-- A unique index on one column. -/
def uniqueIndex : UniqueIndex := ⟨tableTwo, 1, byteOrder, inferInstance⟩

/-- The index without records and without locks. -/
def emptyIndex : Inserting recordLayout Unit :=
  .start (fun _ => ∅) (fun _ => ∅) ⟨.init _, (IndexLockTable.init _).createTable tableTwo .all⟩

/-- The record of a key and a rowid. -/
def keyed (key rowid : UInt8) : List Column := [.byte key, .byte rowid]

instance (trees : Trees layout Data) (t : RootPage) (record : List Column) :
    Decidable (trees.StoresRecord t record) :=
  inferInstanceAs (Decidable (_ = _))

/-- Both connections ask before either inserts. -/
theorem both_lock_key :
    let after := (run (uniqueStep uniqueIndex) emptyIndex
      [.noConflict connA false (keyed 7 1), .noConflict connB false (keyed 7 2),
        .insert connA .all true false (keyed 7 1),
        .insert connB .all true false (keyed 7 2)]).system
    uniqueIndex.SameKey (keyed 7 1) (keyed 7 2) ∧
      ⟨connA.1, keyed 7 1⟩ ∈ after.entries tableTwo ∧
      ⟨connB.1, keyed 7 2⟩ ∈ after.entries tableTwo ∧
      (after.trans connA).trees.StoresRecord tableTwo (keyed 7 1) ∧
      (after.trans connB).trees.StoresRecord tableTwo (keyed 7 2) := by
  decide +kernel

/-- A inserts key 7. B asks for it, and then for key 8 and inserts that. -/
def insertBoth : List UniqueAction :=
  [.noConflict connA false (keyed 7 1), .insert connA .all true false (keyed 7 1),
    .noConflict connB false (keyed 7 2), .noConflict connB false (keyed 8 2),
    .insert connB .all true false (keyed 8 2)]

/-- Both connections have locked and inserted a record. -/
theorem unique_keys_apart_seven :
    Guarded (uniqueStep uniqueIndex) (CheckDiscipline uniqueIndex) emptyIndex insertBoth ∧
    connA ≠ connB ∧
    (∀ elem ∈ emptyIndex.system.entries tableTwo, ∀ elem' ∈ emptyIndex.system.entries tableTwo,
      uniqueIndex.SameKey elem.key elem'.key → elem.data = elem'.data) ∧
    (run (uniqueStep uniqueIndex) emptyIndex insertBoth).system.entries tableTwo =
      {⟨connB.1, keyed 8 2⟩, ⟨connA.1, keyed 7 1⟩} ∧
    KeysApart uniqueIndex (run (uniqueStep uniqueIndex) emptyIndex insertBoth).system
      connA connB := by
  have unlocked : emptyIndex.system.entries tableTwo = 0 := by decide
  have noLock : ∀ elem, elem ∉ emptyIndex.system.entries tableTwo := by
    intro elem
    rw [unlocked]
    exact Multiset.notMem_zero elem
  have oneLock : ∀ elem ∈ (run (uniqueStep uniqueIndex) emptyIndex
      (insertBoth.take 2)).system.entries tableTwo, elem = ⟨connA.1, keyed 7 1⟩ := by
    decide +kernel
  have has : (run (uniqueStep uniqueIndex) emptyIndex (insertBoth.take 1)).checked connA =
      some (uniqueIndex.keyColumns (keyed 7 1)) := by decide +kernel
  have inserted := congrArg Inserting.checked (uniqueStep_insert has .all true false)
  have disciplined : Guarded (uniqueStep uniqueIndex) (CheckDiscipline uniqueIndex) emptyIndex
      insertBoth := by
    refine ⟨⟨fun elem member => absurd member (noLock elem), fun elem sees =>
      absurd sees.member (noLock elem)⟩, fun _ => ⟨rfl, ?_, fun elem sees =>
      absurd sees.member (noLock elem)⟩, ⟨?_, ?_⟩, ⟨?_, ?_⟩, fun _ => ⟨rfl, ?_, ?_⟩, trivial⟩
    · intro other apart key has
      have unchecked : emptyIndex.checked other = some key :=
        (update_of_ne apart ..).symm.trans has
      cases unchecked
    · intro elem member _ _
      obtain rfl := oneLock elem member
      exact ⟨member, nofun, by decide +kernel⟩
    · intro elem sees _
      obtain rfl := oneLock elem sees.member
      decide +kernel
    · intro elem member _ same
      obtain rfl := oneLock elem member
      exact absurd same (by decide +kernel)
    · intro elem sees _
      obtain rfl := oneLock elem sees.member
      exact absurd sees.equal (by decide +kernel)
    · intro other apart key has
      have unchecked := (congrFun inserted other).symm.trans
        ((update_of_ne apart ..).symm.trans ((update_of_ne apart ..).symm.trans has))
      by_cases mine : other = connA
      · cases mine ▸ unchecked
      · cases (update_of_ne mine ..).symm.trans ((update_of_ne mine ..).symm.trans unchecked)
    · intro elem sees _
      obtain rfl := oneLock elem sees.member
      exact absurd sees.equal (by decide +kernel)
  have owners : ∀ elem ∈ emptyIndex.system.entries tableTwo,
      ∀ elem' ∈ emptyIndex.system.entries tableTwo,
      uniqueIndex.SameKey elem.key elem'.key → elem.data = elem'.data :=
    fun elem member => absurd member (noLock elem)
  exact ⟨disciplined, by decide, owners, by decide +kernel, unique_keys_apart uniqueIndex _ _ _
    owners insertBoth disciplined connA connB (by decide)⟩

end SQLumDash.Trans
